import Winunitd.Journal.Cursor
import Winunitd.Lib.Transition

/-
  Log queries.

  A query scans the archives of a unit from the oldest on and
  then its current file.  It skips archives that end before
  the cursor, looks for the cursor's record, and returns the
  records after it as far as the budget allows.

  Key definitions include:
    * `Request`, `Page`
    * `Scan`, `scanLine`
    * `LogFiles`, `scan`
    * `Reader`, `Reader.step`
    * `reading`
-/

------------------------------------------------------------
-- Requests
------------------------------------------------------------

namespace Winunitd

namespace Journal

/- Bytes of an entry in a response. -/
class EntrySize where
  encodedSize : Entry → Nat

/- A page that is asked for; a zero budget is unlimited. -/
structure Request where
  unit : String
  since : Nat
  cursor : List Char
  maxBytes : Nat

/- A page; the cursor is positioned after its last entry. -/
structure Page where
  entries : List Entry
  next : List Char
  more : Bool
  err : Option String
deriving DecidableEq, Repr

/- The record is of the unit and not before the bound. -/
def Entry.Matches
    [Name.LetterCase]
    (unit : String)
    (since : Nat)
    (e : Entry) : Prop :=
  canonicalUnit e.unit = unit ∧ ¬ (since ≠ 0 ∧ e.timestamp < since)

instance
    [Name.LetterCase]
    (unit : String)
    (since : Nat)
    (e : Entry) :
    Decidable (e.Matches unit since) :=
  inferInstanceAs (Decidable (_ ∧ _))

/- The records that a query asks for. -/
def matching
    [Name.LetterCase]
    (unit : String)
    (since : Nat)
    (es : List Entry) :
    List Entry :=
  es.filter (fun e => e.Matches unit since)

namespace Request

/- The page has no room for the entry. -/
def Exceeds [EntrySize] (r : Request) (used : Nat) (e : Entry) :
    Prop :=
  0 < r.maxBytes ∧
    r.maxBytes < used + EntrySize.encodedSize e + 1

instance [EntrySize] (r : Request) (used : Nat) (e : Entry) :
    Decidable (r.Exceeds used e) :=
  inferInstanceAs (Decidable (_ ∧ _))

def wantID (r : Request) : List Char :=
  (parseCursor r.cursor).1

def wantN (r : Request) : Nat :=
  (parseCursor r.cursor).2

def cursorTS [TimeText] (r : Request) : Nat :=
  cursorTime r.wantID

end Request

------------------------------------------------------------
-- One Line
------------------------------------------------------------

/- What a scan has found so far. -/
structure Scan where
  out : List Entry
  used : Nat
  next : List Char
  past : Bool
  seen : List Char → Nat

/- The scan after one more entry of the page. -/
def Scan.add
    [EntrySize]
    (r : Request)
    (st : Scan)
    (id : List Char)
    (e : Entry) :
    Scan :=
  { st with
    out := st.out ++ [e]
    used :=
      if 0 < r.maxBytes then
        st.used + EntrySize.encodedSize e + 1
      else
        st.used
    next := formatCursor id (st.seen id) }

/- Add an entry to the page, or end the page. -/
def deliver
    [EntrySize]
    (r : Request)
    (st : Scan)
    (id : List Char)
    (e : Entry) :
    Except Page Scan :=
  if r.Exceeds st.used e then
    .error
      { entries := st.out
        next := st.next
        more := !st.out.isEmpty
        err :=
          if st.out.isEmpty then
            some "journal entry exceeds log response budget"
          else
            none }
  else
    .ok (st.add r id e)

/- Count one more record with an identifier. -/
def Scan.count (st : Scan) (id : List Char) : Scan :=
  { st with seen := Function.update st.seen id (st.seen id + 1) }

/- Scan an entry that the request asks for. -/
def scanMatch
    [TimeText]
    [EntrySize]
    (r : Request)
    (archive : Bool)
    (st : Scan)
    (e : Entry) :
    Except Page Scan :=
  if st.past = false ∧ r.cursorTS ≠ 0 ∧ e.timestamp ≠ 0 ∧
      e.timestamp < r.cursorTS then
    .ok st
  else
    let id := entryID e
    let st := st.count id
    if st.past then deliver r st id e
    else if id = r.wantID then
      if st.seen id ≤ r.wantN then
        .ok { st with past := decide (st.seen id = r.wantN) }
      else
        deliver r { st with past := true } id e
    else if archive = true ∧ e.timestamp ≠ 0 ∧
        r.cursorTS < e.timestamp then
      -- The cursor's line has been rotated off.
      deliver r { st with past := true } id e
    else
      .ok st

/- Scan one line; a line that does not decode is skipped. -/
def scanLine
    [Name.LetterCase]
    [TimeText]
    [EntrySize]
    (r : Request)
    (archive : Bool)
    (st : Scan) :
    Option Entry → Except Page Scan
| none => .ok st
| some e =>
    if e.Matches r.unit r.since then scanMatch r archive st e
    else .ok st

------------------------------------------------------------
-- Files
------------------------------------------------------------

/-
  The journal files of a unit, as decoded lines.  Archives
  are listed from the newest on.
-/
structure LogFiles where
  archives : List (List (Option Entry))
  current : List (Option Entry)

/- The time of the last line, or the zero time. -/
def peekLastTimestamp (lines : List (Option Entry)) : Nat :=
  match lines.getLast? with
  | some (some e) => e.timestamp
  | _ => 0

/- The archive ends before the cursor. -/
def Request.Skips
    [TimeText]
    (r : Request)
    (lines : List (Option Entry)) : Prop :=
  r.cursorTS ≠ 0 ∧ peekLastTimestamp lines ≠ 0 ∧
    peekLastTimestamp lines < r.cursorTS

instance
    [TimeText]
    (r : Request)
    (lines : List (Option Entry)) :
    Decidable (r.Skips lines) :=
  inferInstanceAs (Decidable (_ ∧ _ ∧ _))

/- The scan at its first line. -/
def Request.begin (r : Request) : Scan where
  out := []
  used := 0
  next := r.cursor
  past := r.cursor.isEmpty
  seen := fun _ => 0

section Scan

variable [Name.LetterCase]
variable [TimeText]
variable [EntrySize]

/- Scan the lines of a file. -/
def scanFile
    (r : Request)
    (archive : Bool)
    (st : Scan)
    (lines : List (Option Entry)) :
    Except Page Scan :=
  lines.foldlM (scanLine r archive) st

/- Scan an archive, or skip it. -/
def scanArchive
    (r : Request)
    (st : Scan)
    (lines : List (Option Entry)) :
    Except Page Scan :=
  if r.Skips lines then .ok st else scanFile r true st lines

/- Scan all files of a unit. -/
def scanFiles (r : Request) (files : LogFiles) : Except Page Scan :=
  (files.archives.reverse.foldlM (scanArchive r) r.begin).bind
    (fun st => scanFile r false st files.current)

/- The page of a request. -/
def scan (r : Request) (files : LogFiles) : Page :=
  match scanFiles r files with
  | .error page => page
  | .ok st =>
      { entries := st.out, next := st.next, more := false, err := none }

end Scan

------------------------------------------------------------
-- Readers
------------------------------------------------------------

/-
  A reader that follows the cursors of one unit's log while
  records are appended and files rotated.  The last three
  fields record the run: all records written, the pages'
  entries, and the records rotated off before there was a
  cursor.
-/
structure Reader where
  archives : List (List Entry)
  current : List Entry
  cursor : List Char
  written : List Entry
  delivered : List Entry
  missed : List Entry

/- What can happen next. -/
inductive ReadLabel where
| append (e : Entry)
| rotate
| page (maxBytes : Nat)
deriving DecidableEq, Repr

/- What stays the same: the unit, the bound, the archives. -/
structure LogQuery where
  unit : String
  since : Nat
  keep : Nat

def defaultKeep : Nat := 3

/- The number of archives that are kept. -/
def LogQuery.kept (q : LogQuery) : Nat :=
  if q.keep = 0 then defaultKeep else q.keep

namespace Reader

/- An empty log and no cursor. -/
def start : Reader where
  archives := []
  current := []
  cursor := []
  written := []
  delivered := []
  missed := []

/- The retained records, in the order they were written. -/
def retained (s : Reader) : List Entry :=
  s.archives.reverse.flatten ++ s.current

/- The records that the next rotation removes. -/
def rotatedOff (q : LogQuery) (s : Reader) : List Entry :=
  ((s.current :: s.archives).drop q.kept).reverse.flatten

def files (s : Reader) : LogFiles where
  archives := s.archives.map (fun f => f.map some)
  current := s.current.map some

def request (q : LogQuery) (s : Reader) (maxBytes : Nat) :
    Request where
  unit := q.unit
  since := q.since
  cursor := s.cursor
  maxBytes := maxBytes

end Reader

section Reading

variable [Name.LetterCase]
variable [TimeText]
variable [EntrySize]

/-
  One step of the writer or of the reader.  A log has fewer
  records than an `int` can count.
-/
def Reader.step (q : LogQuery) (s : Reader) :
    ReadLabel → Option Reader
| .append e =>
    if s.retained.length < maxInt then
      some
        { s with
          current := s.current ++ [e]
          written := s.written ++ [e] }
    else none
| .rotate =>
    some
      { s with
        archives := (s.current :: s.archives).take q.kept
        current := []
        missed :=
          if s.cursor = [] then
            s.missed ++ matching q.unit q.since (s.rotatedOff q)
          else
            s.missed }
| .page maxBytes =>
    let page := scan (s.request q maxBytes) s.files
    some
      { s with
        cursor := page.next
        delivered := s.delivered ++ page.entries }

/- All runs of a reader. -/
def reading (q : LogQuery) : Lib.System Reader ReadLabel where
  init s := s = .start
  step := Reader.step q

end Reading

end Journal

end Winunitd
