import Mathlib.Data.Fintype.Fin
import Winunitd.Unit.Names

/-
  Calendar expressions.

  An expression is `daily`, or a time of day after weekdays, a
  date pattern or both.  What the parser accepts has every
  fixed field within its range.

  Key definitions include:
    * `OnCalendar`
    * `parseCalendar`
    * `OnCalendar.InRange`

  Key theorems include:
    * `inRange_of_parseCalendar`
-/

------------------------------------------------------------
-- Expressions
------------------------------------------------------------

namespace Winunitd

namespace Timers

open Name

/-
  A parsed expression.  Weekdays are numbered from Sunday; year,
  month and day are minus one for a wildcard.
-/
structure OnCalendar where
  raw : List Char
  restrictWeekdays : Bool
  weekdays : Fin 7 → Bool
  year : Int
  month : Int
  day : Int
  hour : Int
  minute : Int
  second : Int

/- Whether a weekday is included in the expression. -/
def OnCalendar.allowsWeekday (c : OnCalendar) (d : Fin 7) : Bool :=
  if c.restrictWeekdays = false then true else c.weekdays d

/- Why an expression is refused. -/
inductive CalendarError where
| empty
| invalid (raw : List Char)
| year (raw pattern : List Char)
| month (raw pattern : List Char)
| day (raw pattern : List Char)
| weekday (raw name : List Char)
| emptyList (raw : List Char)
deriving DecidableEq, Repr

/- The text of an error, given how messages print a string. -/
def CalendarError.text (quote : List Char → String) :
    CalendarError → String
| .empty => "empty calendar expression"
| .invalid raw => "invalid calendar expression " ++ quote raw
| .year raw pattern =>
    "invalid calendar expression " ++ quote raw ++
      ": invalid year in " ++ quote pattern
| .month raw pattern =>
    "invalid calendar expression " ++ quote raw ++
      ": invalid month in " ++ quote pattern
| .day raw pattern =>
    "invalid calendar expression " ++ quote raw ++
      ": invalid day in " ++ quote pattern
| .weekday raw name =>
    "invalid calendar expression " ++ quote raw ++
      ": invalid weekday " ++ quote name
| .emptyList raw =>
    "invalid calendar expression " ++ quote raw ++
      ": empty weekday list"

------------------------------------------------------------
-- Numbers And Dates
------------------------------------------------------------

/-
  A number within bounds.  Digits outside of ASCII are digits to
  the scan and no number to the conversion after it.
-/
def parseBounded (s : List Char) (min max : Int) : Option Int :=
  if s = [] then none
  else if s.all Char.isDigit = false then none
  else
    let n : Int :=
      s.foldl (fun n c => 10 * n + (c.toNat - '0'.toNat : Nat)) (0 : Nat)
    if n < min ∨ max < n then none else some n

def parseWildcardInt (s : List Char) (min max : Int) : Option Int :=
  if s = ['*'] then some (-1) else parseBounded s min max

/- Hours, minutes and seconds; the seconds are optional. -/
def parseTimeOfDay (s : List Char) : Option (Int × Int × Int) :=
  match s.splitOn ':' with
  | [h, m] =>
      match parseBounded h 0 23, parseBounded m 0 59 with
      | some hour, some minute => some (hour, minute, 0)
      | _, _ => none
  | [h, m, sec] =>
      match parseBounded h 0 23, parseBounded m 0 59,
        parseBounded sec 0 59 with
      | some hour, some minute, some second =>
          some (hour, minute, second)
      | _, _, _ => none
  | _ => none

def isDatePattern (s : List Char) : Bool :=
  (s.splitOn '-').length = 3

def parseDatePattern (raw s : List Char) :
    Except CalendarError (Int × Int × Int) :=
  match s.splitOn '-' with
  | [y, m, d] =>
      match parseWildcardInt y 1 9999 with
      | none => .error (.year raw s)
      | some year =>
          match parseWildcardInt m 1 12 with
          | none => .error (.month raw s)
          | some month =>
              match parseWildcardInt d 1 31 with
              | none => .error (.day raw s)
              | some day => .ok (year, month, day)
  | _ => .error (.invalid raw)

------------------------------------------------------------
-- Weekdays
------------------------------------------------------------

section Parsing

variable [LetterCase]

def weekdayName (s : List Char) : Option (Fin 7) :=
  let name := lower (trimSpace s)
  if name ∈ ["sun".toList, "sunday".toList] then some 0
  else if name ∈ ["mon".toList, "monday".toList] then some 1
  else if name ∈ ["tue".toList, "tues".toList, "tuesday".toList] then
    some 2
  else if name ∈ ["wed".toList, "wednesday".toList] then some 3
  else if name ∈ ["thu".toList, "thur".toList, "thurs".toList,
      "thursday".toList] then
    some 4
  else if name ∈ ["fri".toList, "friday".toList] then some 5
  else if name ∈ ["sat".toList, "saturday".toList] then some 6
  else none

def looksLikeWeekdays (s : List Char) : Bool :=
  (weekdayName (s.takeWhile (fun c => c ≠ '.' && c ≠ ','))).isSome

/- The text before and after the first two dots. -/
def cutDots : List Char → Option (List Char × List Char)
| '.' :: '.' :: rest => some ([], rest)
| c :: rest => (cutDots rest).map (fun p => (c :: p.1, p.2))
| [] => none

/- Add a weekday that has not been seen. -/
def addDay (days : List (Fin 7)) (d : Fin 7) : List (Fin 7) :=
  if d ∈ days then days else days ++ [d]

/- The weekdays from one to another, around the end of the week. -/
def addRange :
    Nat → List (Fin 7) → Fin 7 → Fin 7 → List (Fin 7)
| 0, days, _, _ => days
| k + 1, days, d, last =>
    let days := addDay days d
    if d = last then days else addRange k days (d + 1) last

def parseWeekdaysAux (raw : List Char) :
    List (Fin 7) → List (List Char) →
      Except CalendarError (List (Fin 7))
| days, [] => .ok days
| days, part :: parts =>
    let part := trimSpace part
    if part = [] then .error (.emptyList raw)
    else
      match cutDots part with
      | some (first, last) =>
          match weekdayName first with
          | none => .error (.weekday raw first)
          | some a =>
              match weekdayName last with
              | none => .error (.weekday raw last)
              | some b =>
                  -- a week has seven days, so the walk ends
                  parseWeekdaysAux raw (addRange 7 days a b) parts
      | none =>
          match weekdayName part with
          | none => .error (.weekday raw part)
          | some d => parseWeekdaysAux raw (addDay days d) parts

def parseWeekdays (raw s : List Char) :
    Except CalendarError (List (Fin 7)) :=
  match parseWeekdaysAux raw [] (s.splitOn ',') with
  | .error err => .error err
  | .ok days => if days = [] then .error (.emptyList raw) else .ok days

------------------------------------------------------------
-- The Parser
------------------------------------------------------------

/- The fields of a text, between white space. -/
def fields (s : List Char) : List (List Char) :=
  (s.splitOnP isSpace).filter (fun f => f ≠ [])

/- Equality with the case of letters aside. -/
def equalFold (s : List Char) (word : List Char) : Bool :=
  s.length = word.length &&
    (s.zip word).all (fun p => p.1 = p.2 || p.1 = p.2.toUpper)

def daily (raw : List Char) : OnCalendar where
  raw := raw
  restrictWeekdays := false
  weekdays := fun _ => false
  year := -1
  month := -1
  day := -1
  hour := 0
  minute := 0
  second := 0

/- Read the fields before the time of day. -/
def parseFields (raw : List Char) :
    OnCalendar → Bool → Bool → List (List Char) →
      Except CalendarError OnCalendar
| cal, sawDate, sawWeekday, [] =>
    if sawDate = false ∧ sawWeekday = false then
      .error (.invalid raw)
    else .ok cal
| cal, sawDate, sawWeekday, f :: rest =>
    if isDatePattern f = true then
      if sawDate = true then .error (.invalid raw)
      else
        match parseDatePattern raw f with
        | .error err => .error err
        | .ok (y, m, d) =>
            parseFields raw { cal with year := y, month := m, day := d }
              true sawWeekday rest
    else if looksLikeWeekdays f = true then
      match parseWeekdays raw f with
      | .error err => .error err
      | .ok days =>
          parseFields raw
            { cal with
              restrictWeekdays := true
              weekdays := fun d => cal.weekdays d || d ∈ days }
            sawDate true rest
    else .error (.invalid raw)

def parseCalendar (s : List Char) : Except CalendarError OnCalendar :=
  let raw := trimSpace s
  if raw = [] then .error .empty
  else if equalFold raw "daily".toList = true then .ok (daily raw)
  else
    match (fields raw).getLast? with
    -- a text that is not blank has a field
    | none => .error (.invalid raw)
    | some last =>
        match parseTimeOfDay last with
        | none => .error (.invalid raw)
        | some (hour, minute, second) =>
            let rest := (fields raw).dropLast
            if rest = [] then .error (.invalid raw)
            else
              parseFields raw
                { daily raw with
                  hour := hour, minute := minute, second := second }
                false false rest

end Parsing

------------------------------------------------------------
-- Ranges
------------------------------------------------------------

/- A wildcard or a number within bounds. -/
def Wild (n min max : Int) : Prop :=
  n = -1 ∨ (min ≤ n ∧ n ≤ max)

/- Every field is within its range. -/
structure OnCalendar.InRange (c : OnCalendar) : Prop where
  year : Wild c.year 1 9999
  month : Wild c.month 1 12
  day : Wild c.day 1 31
  hour : 0 ≤ c.hour ∧ c.hour ≤ 23
  minute : 0 ≤ c.minute ∧ c.minute ≤ 59
  second : 0 ≤ c.second ∧ c.second ≤ 59

variable {s : List Char}
variable {min max n : Int}

theorem parseBounded_range
    (h : parseBounded s min max = some n) :
    min ≤ n ∧ n ≤ max := by
  unfold parseBounded at h
  split at h
  · cases h
  split at h
  · cases h
  dsimp only at h
  split at h
  · cases h
  · have hEq := Option.some.inj h
    omega

theorem parseWildcardInt_range
    (h : parseWildcardInt s min max = some n) :
    Wild n min max := by
  unfold parseWildcardInt at h
  split at h
  · exact .inl (Option.some.inj h).symm
  · exact .inr (parseBounded_range h)

theorem parseTimeOfDay_range
    {hour minute second : Int}
    (h : parseTimeOfDay s = some (hour, minute, second)) :
    (0 ≤ hour ∧ hour ≤ 23) ∧ (0 ≤ minute ∧ minute ≤ 59) ∧
      (0 ≤ second ∧ second ≤ 59) := by
  unfold parseTimeOfDay at h
  split at h
  · split at h
    · rename_i hHour hMinute
      cases h
      exact ⟨parseBounded_range hHour, parseBounded_range hMinute,
        by omega⟩
    · cases h
  · split at h
    · rename_i hHour hMinute hSecond
      cases h
      exact ⟨parseBounded_range hHour, parseBounded_range hMinute,
        parseBounded_range hSecond⟩
    · cases h
  · cases h

theorem parseDatePattern_range
    {raw s : List Char}
    {y m d : Int}
    (h : parseDatePattern raw s = .ok (y, m, d)) :
    Wild y 1 9999 ∧ Wild m 1 12 ∧ Wild d 1 31 := by
  unfold parseDatePattern at h
  split at h
  · split at h
    · cases h
    rename_i hYear
    split at h
    · cases h
    rename_i hMonth
    split at h
    · cases h
    rename_i hDay
    cases h
    exact ⟨parseWildcardInt_range hYear, parseWildcardInt_range hMonth,
      parseWildcardInt_range hDay⟩
  · cases h

theorem inRange_daily
    (raw : List Char) :
    (daily raw).InRange :=
  ⟨.inl rfl, .inl rfl, .inl rfl, by simp [daily], by simp [daily],
    by simp [daily]⟩

section Parsing

variable [LetterCase]

theorem inRange_parseFields
    {raw : List Char}
    {rest : List (List Char)}
    {cal c : OnCalendar}
    {sawDate sawWeekday : Bool}
    (hCal : cal.InRange)
    (h : parseFields raw cal sawDate sawWeekday rest = .ok c) :
    c.InRange := by
  -- every field of the text sets its own fields within range
  induction rest generalizing cal sawDate sawWeekday with
  | nil =>
      unfold parseFields at h
      split at h
      · cases h
      · cases h
        exact hCal
  | cons f rest ih =>
      unfold parseFields at h
      split at h
      · split at h
        · cases h
        split at h
        · cases h
        · rename_i y m d hPattern
          rcases parseDatePattern_range hPattern with
            ⟨hYear, hMonth, hDay⟩
          refine ih ?_ h
          exact ⟨hYear, hMonth, hDay, hCal.hour, hCal.minute,
            hCal.second⟩
      split at h
      · split at h
        · cases h
        · refine ih ?_ h
          exact { hCal with }
      · cases h

/- What the parser accepts is within range. -/
theorem inRange_of_parseCalendar
    {c : OnCalendar}
    (h : parseCalendar s = .ok c) :
    c.InRange := by
  unfold parseCalendar at h
  dsimp only at h
  split at h
  · cases h
  split at h
  · cases h
    exact inRange_daily _
  split at h
  · cases h
  split at h
  · cases h
  rename_i hTime
  split at h
  · cases h
  rcases parseTimeOfDay_range hTime with ⟨hHour, hMinute, hSecond⟩
  exact inRange_parseFields
    ⟨.inl rfl, .inl rfl, .inl rfl, hHour, hMinute, hSecond⟩ h

end Parsing

end Timers

end Winunitd
