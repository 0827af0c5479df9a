import Winunitd.Lib.Json
import Winunitd.Journal.Fragments
import Winunitd.Unit.Names
import Mathlib.Data.List.Infix

/-
  Daemon events.

  An event is written to the daemon log as one line of JSON.
  Each of its texts is trimmed, and left out if it is too long,
  not UTF-8, or looks like a secret or the dump of a parser.  If
  the line as a whole looks like a secret, all of them are left
  out.  A line is read back under the same tests.

  JSON itself is the host's; what is needed of it is the class
  `DaemonJson`, and `hostJson` is an instance.

  Key definitions include:
    * `DaemonEvent`, `DaemonRecord`, `DaemonEventView`
    * `cleanDaemonField`, `payloadForbidden`
    * `DaemonJson`, `hostJson`
    * `encodeDaemonEvent`, `decodeDaemonEvent`

  Key theorems include:
    * `readRunes_encode`
    * `cleanDaemonField_idem`
    * `decode_encodeDaemonEvent`
    * `daemonEvent_roundTrip`
-/

------------------------------------------------------------
-- Runes
------------------------------------------------------------

namespace Winunitd

namespace Journal

open Lib

theorem readRune_encode
    (c : Char)
    (bytes : List UInt8) :
    readRune (String.utf8EncodeChar c ++ bytes) = (c, c.utf8Size) := by
  have hDecode :
      ByteArray.utf8DecodeChar?
        ⟨(String.utf8EncodeChar c ++ bytes).toArray⟩ 0 = some c := by
    have hSplit :
        (⟨(String.utf8EncodeChar c ++ bytes).toArray⟩ : ByteArray) =
          (String.utf8EncodeChar c).toByteArray ++
            bytes.toByteArray := by
      rw [← List.toByteArray_append]
      exact ByteArray.ext (List.data_toByteArray).symm
    rw [hSplit]
    exact ByteArray.utf8DecodeChar?_utf8EncodeChar_append
  rw [readRune, hDecode]

/- The runes of valid UTF-8. -/
theorem readRunesFrom_encode
    (cs : List Char)
    {n : Nat}
    (h : (encode cs).length ≤ n) :
    readRunesFrom n (encode cs) = cs := by
  induction cs generalizing n with
  | nil => cases n <;> rfl
  | cons c cs ih =>
      have hEq :
          encode (c :: cs) = String.utf8EncodeChar c ++ encode cs :=
        List.flatMap_cons
      have hLength := String.length_utf8EncodeChar c
      have hPos := Char.utf8Size_pos c
      rw [hEq, List.length_append] at h
      obtain ⟨k, rfl⟩ : ∃ k, n = k + 1 := ⟨n - 1, by omega⟩
      have hRune := readRune_encode c (encode cs)
      have hDrop :
          (String.utf8EncodeChar c ++ encode cs).drop c.utf8Size =
            encode cs := by
        rw [← hLength, List.drop_left]
      rw [hEq]
      cases hBytes : String.utf8EncodeChar c ++ encode cs with
      | nil =>
          have hNil := congrArg List.length hBytes
          rw [List.length_append, List.length_nil] at hNil
          omega
      | cons b bs =>
          rw [hBytes] at hRune hDrop
          rw [readRunesFrom, hRune, hDrop, ih (by omega)]

@[simp] theorem readRunes_encode (cs : List Char) :
    readRunes (encode cs) = cs :=
  readRunesFrom_encode cs (Nat.le_refl _)

------------------------------------------------------------
-- Texts
------------------------------------------------------------

section

variable [Name.LetterCase]

open Name (lower trimSpace)

def maxDaemonFieldBytes : Nat := 160

def maxDaemonRecordBytes : Nat := 1024

def daemonLogVersion : Int64 := 1

def daemonCodes : List String :=
  ["lifecycle.rejected", "lifecycle.start-limit", "daemon.open",
    "daemon.close", "daemon.startup-failed", "daemon.admission-held"]

def knownDaemonCode (code : List Char) : Bool :=
  daemonCodes.any (·.toList = code)

def secretFragments : List String :=
  ["password=", "credentialuri", "store-uri", "credman:", "wincred:",
    "://"]

/- What no text has, in lower case. -/
def forbiddenFragments : List (List Char) :=
  ("environment=" :: secretFragments).map String.toList

def textForbidden (s : List Char) : Bool :=
  s.any (· ∈ ['\r', '\n', '\x00']) ||
    forbiddenFragments.any (· <:+: lower s)

/- A colon with a digit after it. -/
def looksLikeParserDump (s : List Char) : Bool :=
  (s.zip s.tail).any (fun p => p.1 = ':' && '0' ≤ p.2 && p.2 ≤ '9')

def payloadForbidden (b : List UInt8) : Bool :=
  b.isEmpty || b.contains 10 || b.contains 13 ||
    textForbidden (readRunes b)

/- Whether bytes are UTF-8. -/
def validString (s : List UInt8) : Bool :=
  encode (readRunes s) = s

/-
  A text that is not UTF-8 is left out, so its runes may stand
  for it before that is tested.
-/
def cleanDaemonField (s : List UInt8) : List Char :=
  let t := trimSpace (readRunes s)
  if t = [] ∨ maxDaemonFieldBytes < (encode t).length ∨
      textForbidden t ∨ ¬validString s then []
  else t

def cleanDaemonReason (s : List UInt8) : List Char :=
  let t := cleanDaemonField s
  if looksLikeParserDump t then [] else t

omit [Name.LetterCase] in
theorem validString_encode (t : List Char) :
    validString (encode t) = true := by
  simp [validString]

@[simp] theorem cleanDaemonField_empty :
    cleanDaemonField [] = [] := by
  unfold cleanDaemonField
  exact if_pos (Or.inl rfl)

/- A cleaned text is left as it is. -/
theorem cleanDaemonField_idem (s : List UInt8) :
    cleanDaemonField (encode (cleanDaemonField s)) =
      cleanDaemonField s := by
  by_cases hOmit :
      trimSpace (readRunes s) = [] ∨
        maxDaemonFieldBytes <
          (encode (trimSpace (readRunes s))).length ∨
        textForbidden (trimSpace (readRunes s)) ∨ ¬validString s
  · have hEmpty : cleanDaemonField s = [] := if_pos hOmit
    rw [hEmpty]
    exact cleanDaemonField_empty
  · have hKept : cleanDaemonField s = trimSpace (readRunes s) :=
      if_neg hOmit
    have hTrim :
        trimSpace (trimSpace (readRunes s)) = trimSpace (readRunes s) :=
      Name.trimSpace_of_trimmed (Name.trimmed_trimSpace _)
    simp only [not_or] at hOmit
    rw [hKept]
    unfold cleanDaemonField
    simp only [readRunes_encode, hTrim]
    rw [if_neg]
    simp only [not_or]
    exact ⟨hOmit.1, hOmit.2.1, hOmit.2.2.1,
      by simp [validString_encode]⟩

theorem cleanDaemonReason_idem (s : List UInt8) :
    cleanDaemonReason (encode (cleanDaemonReason s)) =
      cleanDaemonReason s := by
  by_cases hDump : looksLikeParserDump (cleanDaemonField s) = true
  · have hEmpty : cleanDaemonReason s = [] := if_pos hDump
    rw [hEmpty]
    show cleanDaemonReason [] = []
    simp [cleanDaemonReason]
  · have hKept : cleanDaemonReason s = cleanDaemonField s :=
      if_neg hDump
    rw [hKept, cleanDaemonReason, cleanDaemonField_idem]
    exact if_neg hDump

end

------------------------------------------------------------
-- Records
------------------------------------------------------------

/- The texts of an event, all but its code. -/
structure DaemonFields (T : Type) where
  unit : T
  invocationID : T
  operationID : T
  configRevision : T
  loadState : T
  activeState : T
  health : T
  reason : T
deriving DecidableEq, Repr

/- An event; its texts are any bytes. -/
structure DaemonEvent extends DaemonFields (List UInt8) where
  code : List UInt8
  restartAttempt : UInt32
  startLimitBurst : Int64
  startLimitRemaining : Int64
  hasStartLimit : Bool
  hasRemaining : Bool
deriving DecidableEq, Repr

structure DaemonEventView extends DaemonFields (List Char) where
  timestamp : List Char
  code : List Char
  restartAttempt : UInt32
  startLimitBurst : Option Int64
  startLimitRemaining : Option Int64
deriving DecidableEq, Repr

/- What is written to a line. -/
structure DaemonRecord extends DaemonFields (List Char) where
  v : Int64
  timestamp : List Char
  code : List Char
  restartAttempt : UInt32
  startLimitBurst : Option Int64
  startLimitRemaining : Option Int64
deriving DecidableEq, Repr

def DaemonFields.map
    {T U : Type}
    (f : T → U)
    (d : DaemonFields T) : DaemonFields U where
  unit := f d.unit
  invocationID := f d.invocationID
  operationID := f d.operationID
  configRevision := f d.configRevision
  loadState := f d.loadState
  activeState := f d.activeState
  health := f d.health
  reason := f d.reason

def DaemonFields.empty : DaemonFields (List Char) where
  unit := []
  invocationID := []
  operationID := []
  configRevision := []
  loadState := []
  activeState := []
  health := []
  reason := []

def viewFromRecord (r : DaemonRecord) : DaemonEventView where
  toDaemonFields := r.toDaemonFields
  timestamp := r.timestamp
  code := r.code
  restartAttempt := r.restartAttempt
  startLimitBurst := r.startLimitBurst
  startLimitRemaining := r.startLimitRemaining

/- The event with the content of a view. -/
def DaemonEventView.event (view : DaemonEventView) : DaemonEvent where
  toDaemonFields := view.map encode
  code := encode view.code
  restartAttempt := view.restartAttempt
  startLimitBurst := view.startLimitBurst.getD 0
  startLimitRemaining := view.startLimitRemaining.getD 0
  hasStartLimit := view.startLimitBurst.isSome
  hasRemaining := view.startLimitRemaining.isSome

/-
  The JSON of the host.  `decode` reads one record without
  unknown members and with nothing after it.
-/
class DaemonJson where
  marshal : DaemonRecord → Option (List UInt8)
  decode : List UInt8 → Option DaemonRecord
  decode_marshal :
    ∀ {r line}, marshal r = some line → decode line = some r

section

variable [Name.LetterCase]

def DaemonFields.clean
    (d : DaemonFields (List UInt8)) : DaemonFields (List Char) :=
  { d.map cleanDaemonField with reason := cleanDaemonReason d.reason }

/- The record of an event. -/
def DaemonEvent.record
    (now : List Char)
    (ev : DaemonEvent) : DaemonRecord where
  toDaemonFields := ev.toDaemonFields.clean
  v := daemonLogVersion
  timestamp := now
  code := readRunes ev.code
  restartAttempt := ev.restartAttempt
  startLimitBurst :=
    if ev.hasStartLimit then some ev.startLimitBurst else none
  startLimitRemaining :=
    if ev.hasRemaining then some ev.startLimitRemaining else none

variable [DaemonJson]

/- Without its texts, if its line cannot be written with them. -/
def DaemonRecord.allowed (r : DaemonRecord) : DaemonRecord :=
  if (DaemonJson.marshal r).all payloadForbidden then
    { r with toDaemonFields := .empty }
  else r

def encodeDaemonEvent
    (now : List Char)
    (ev : DaemonEvent) : Option (List UInt8 × DaemonEventView) :=
  if ¬knownDaemonCode (readRunes ev.code) then none
  else
    let r := (ev.record now).allowed
    match DaemonJson.marshal r with
    | none => none
    | some line =>
        if maxDaemonRecordBytes < line.length ∨
            payloadForbidden line then none
        else some (line, viewFromRecord r)

def decodeDaemonEvent (line : List UInt8) : Option DaemonEventView :=
  if payloadForbidden line then none
  else
    match DaemonJson.decode line with
    | none => none
    | some r =>
        if r.v ≠ daemonLogVersion ∨ ¬knownDaemonCode r.code ∨
            (r.map encode).clean ≠ r.toDaemonFields then none
        else some (viewFromRecord r)

------------------------------------------------------------
-- Round Trips
------------------------------------------------------------

omit [DaemonJson] in
theorem clean_idem (d : DaemonFields (List UInt8)) :
    (d.clean.map encode).clean = d.clean := by
  simp [DaemonFields.clean, DaemonFields.map, cleanDaemonField_idem,
    cleanDaemonReason_idem]

/- What is written has cleaned texts, or none. -/
theorem allowed_clean
    (now : List Char)
    (ev : DaemonEvent) :
    ((ev.record now).allowed.map encode).clean =
      (ev.record now).allowed.toDaemonFields := by
  unfold DaemonRecord.allowed
  split
  · rfl
  · exact clean_idem ev.toDaemonFields

variable {now : List Char}
variable {ev : DaemonEvent}
variable {line : List UInt8}
variable {view : DaemonEventView}

theorem encodeDaemonEvent_cases
    (h : encodeDaemonEvent now ev = some (line, view)) :
    knownDaemonCode (readRunes ev.code) = true ∧
      DaemonJson.marshal (ev.record now).allowed = some line ∧
      line.length ≤ maxDaemonRecordBytes ∧
      payloadForbidden line = false ∧
      view = viewFromRecord (ev.record now).allowed := by
  unfold encodeDaemonEvent at h
  split at h
  · cases h
  · rename_i hCode
    dsimp only at h
    split at h
    · cases h
    · rename_i text hLine
      split at h
      · cases h
      · rename_i hFits
        rw [not_or, Nat.not_lt, Bool.not_eq_true] at hFits
        cases h
        exact ⟨Decidable.not_not.mp hCode, hLine, hFits.1, hFits.2, rfl⟩

/- The line of an accepted event yields its view. -/
theorem decode_encodeDaemonEvent
    (h : encodeDaemonEvent now ev = some (line, view)) :
    decodeDaemonEvent line = some view := by
  obtain ⟨hCode, hLine, -, hAllowed, rfl⟩ := encodeDaemonEvent_cases h
  have hSame :
      (ev.record now).allowed.v = daemonLogVersion ∧
        (ev.record now).allowed.code = readRunes ev.code := by
    unfold DaemonRecord.allowed
    split <;> exact ⟨rfl, rfl⟩
  simp [decodeDaemonEvent, hAllowed, DaemonJson.decode_marshal hLine,
    hSame, hCode, allowed_clean]

omit [DaemonJson] in
theorem not_mem_of_payloadForbidden
    (h : payloadForbidden line = false) :
    10 ∉ line ∧ 13 ∉ line ∧
      ∀ f ∈ forbiddenFragments,
        ¬f <:+: Name.lower (readRunes line) := by
  simp only [payloadForbidden, textForbidden, Bool.or_eq_false_iff] at h
  obtain ⟨⟨⟨-, hNewline⟩, hReturn⟩, -, hFragments⟩ := h
  refine ⟨by simpa using hNewline, by simpa using hReturn, ?_⟩
  intro f hf hIn
  have hNot := List.any_eq_false.mp hFragments f hf
  exact hNot (decide_eq_true hIn)

/- A view that was read is that of the record of its event. -/
theorem record_decodeDaemonEvent
    (h : decodeDaemonEvent line = some view) :
    viewFromRecord (view.event.record view.timestamp) = view := by
  have hNumber :
      ∀ n : Option Int64,
        (if n.isSome then some (n.getD 0) else none) = n := by
    intro n
    cases n <;> rfl
  unfold decodeDaemonEvent at h
  split at h
  · cases h
  · split at h
    · cases h
    · split at h
      · cases h
      · rename_i r _ hAccepted
        simp only [not_or, Decidable.not_not] at hAccepted
        cases h
        simp only [viewFromRecord, DaemonEventView.event,
          DaemonEvent.record, readRunes_encode, hAccepted.2.2,
          DaemonEventView.mk.injEq, true_and]
        exact ⟨hNumber _, hNumber _⟩

/-
  The line of an accepted event is one line, short and without
  forbidden fragments, and yields the view that was accepted.  The
  event of a view that was read makes a record with all its texts.
-/
theorem daemonEvent_roundTrip :
    (∀ now ev line view,
      encodeDaemonEvent now ev = some (line, view) →
        (10 ∉ line ∧ 13 ∉ line) ∧
          line.length ≤ maxDaemonRecordBytes ∧
          (∀ f ∈ forbiddenFragments,
            ¬f <:+: Name.lower (readRunes line)) ∧
          decodeDaemonEvent line = some view) ∧
      ∀ line view, decodeDaemonEvent line = some view →
        viewFromRecord (view.event.record view.timestamp) = view := by
  refine ⟨?_, fun _ _ h => record_decodeDaemonEvent h⟩
  intro now ev line view h
  obtain ⟨-, -, hShort, hAllowed, -⟩ := encodeDaemonEvent_cases h
  obtain ⟨hNewline, hReturn, hFragments⟩ :=
    not_mem_of_payloadForbidden hAllowed
  exact ⟨⟨hNewline, hReturn⟩, hShort, hFragments,
    decode_encodeDaemonEvent h⟩

end

------------------------------------------------------------
-- The Host
------------------------------------------------------------

namespace DaemonRecord

/- A text that is left out if it is empty. -/
def text (key : String) (s : List Char) : Json.Members :=
  if s = [] then [] else [(key.toList, .str s)]

def number (key : String) : Option Int64 → Json.Members
| none => []
| some n => [(key.toList, .num n.toInt)]

def members (r : DaemonRecord) : Json.Members :=
  [("v".toList, .num r.v.toInt),
    ("timestamp".toList, .str r.timestamp),
    ("code".toList, .str r.code)] ++
  (text "unit" r.unit ++ (text "invocationId" r.invocationID ++
  (text "operationId" r.operationID ++
  (text "configRevision" r.configRevision ++
  (text "loadState" r.loadState ++ (text "activeState" r.activeState ++
  (text "health" r.health ++ (text "reason" r.reason ++
  ((if r.restartAttempt = 0 then []
    else
      [("restartAttempt".toList,
        Json.Value.num r.restartAttempt.toNat)]) ++
  (number "startLimitBurst" r.startLimitBurst ++
    number "startLimitRemaining" r.startLimitRemaining))))))))))

def zero : DaemonRecord where
  toDaemonFields := .empty
  v := 0
  timestamp := []
  code := []
  restartAttempt := 0
  startLimitBurst := none
  startLimitRemaining := none

def toInt64 (n : Int) : Option Int64 :=
  if (Int64.ofInt n).toInt = n then some (Int64.ofInt n) else none

def toUInt32 (n : Int) : Option UInt32 :=
  if ((UInt32.ofNat n.toNat).toNat : Int) = n then
    some (UInt32.ofNat n.toNat)
  else none

/- The record with one more member, if there is such a one. -/
def put (r : DaemonRecord) :
    List Char × Json.Value → Option DaemonRecord
| (key, .str s) =>
    if key = "timestamp".toList then some { r with timestamp := s }
    else if key = "code".toList then some { r with code := s }
    else if key = "unit".toList then some { r with unit := s }
    else if key = "invocationId".toList then
      some { r with invocationID := s }
    else if key = "operationId".toList then
      some { r with operationID := s }
    else if key = "configRevision".toList then
      some { r with configRevision := s }
    else if key = "loadState".toList then
      some { r with loadState := s }
    else if key = "activeState".toList then
      some { r with activeState := s }
    else if key = "health".toList then some { r with health := s }
    else if key = "reason".toList then some { r with reason := s }
    else none
| (key, .num n) =>
    if key = "v".toList then
      (toInt64 n).map (fun n => { r with v := n })
    else if key = "restartAttempt".toList then
      (toUInt32 n).map (fun n => { r with restartAttempt := n })
    else if key = "startLimitBurst".toList then
      (toInt64 n).map (fun n => { r with startLimitBurst := some n })
    else if key = "startLimitRemaining".toList then
      (toInt64 n).map
        (fun n => { r with startLimitRemaining := some n })
    else none

theorem toInt64_toInt (n : Int64) :
    toInt64 n.toInt = some n := by
  simp [toInt64]

theorem toUInt32_toNat (n : UInt32) :
    toUInt32 n.toNat = some n := by
  simp [toUInt32]

theorem foldlM_text
    {key : String}
    {f : DaemonRecord → List Char → DaemonRecord}
    (hPut : ∀ r s, put r (key.toList, .str s) = some (f r s))
    {r : DaemonRecord}
    (hEmpty : f r [] = r)
    (s : List Char) :
    (text key s).foldlM put r = some (f r s) := by
  unfold text
  split
  · rename_i hNil
    rw [hNil, hEmpty]
    rfl
  · simp [hPut]

theorem foldlM_number
    {key : String}
    {f : DaemonRecord → Option Int64 → DaemonRecord}
    (hPut :
      ∀ r n, put r (key.toList, .num n) =
        (toInt64 n).map (fun n => f r (some n)))
    {r : DaemonRecord}
    (hEmpty : f r none = r)
    (n : Option Int64) :
    (number key n).foldlM put r = some (f r n) := by
  cases n with
  | none =>
      rw [hEmpty]
      rfl
  | some n => simp [number, hPut, toInt64_toInt]

/- The members make the record again. -/
theorem foldlM_members (r : DaemonRecord) :
    r.members.foldlM put zero = some r := by
  have hHead :
      [("v".toList, .num r.v.toInt),
          ("timestamp".toList, .str r.timestamp),
          ("code".toList, .str r.code)].foldlM put zero =
        some
          { zero with
            v := r.v
            timestamp := r.timestamp
            code := r.code } := by
    simp [put, toInt64_toInt]
  have hAttempt :
      ∀ s : DaemonRecord, s.restartAttempt = 0 →
        (if r.restartAttempt = 0 then []
          else
            [("restartAttempt".toList,
              Json.Value.num r.restartAttempt.toNat)]).foldlM put s =
          some { s with restartAttempt := r.restartAttempt } := by
    intro s hs
    split
    · rename_i hZero
      rw [hZero, ← hs]
      rfl
    · simp [put, toUInt32_toNat]
  simp only [members, List.foldlM_append, hHead, Option.bind_eq_bind,
    Option.bind_some]
  rw [foldlM_text (f := fun r s => { r with unit := s })
      (fun _ _ => rfl) rfl, Option.bind_some,
    foldlM_text (f := fun r s => { r with invocationID := s })
      (fun _ _ => rfl) rfl, Option.bind_some,
    foldlM_text (f := fun r s => { r with operationID := s })
      (fun _ _ => rfl) rfl, Option.bind_some,
    foldlM_text (f := fun r s => { r with configRevision := s })
      (fun _ _ => rfl) rfl, Option.bind_some,
    foldlM_text (f := fun r s => { r with loadState := s })
      (fun _ _ => rfl) rfl, Option.bind_some,
    foldlM_text (f := fun r s => { r with activeState := s })
      (fun _ _ => rfl) rfl, Option.bind_some,
    foldlM_text (f := fun r s => { r with health := s })
      (fun _ _ => rfl) rfl, Option.bind_some,
    foldlM_text (f := fun r s => { r with reason := s })
      (fun _ _ => rfl) rfl, Option.bind_some,
    hAttempt _ rfl, Option.bind_some,
    foldlM_number (f := fun r n => { r with startLimitBurst := n })
      (fun _ _ => rfl) rfl, Option.bind_some,
    foldlM_number (f := fun r n => { r with startLimitRemaining := n })
      (fun _ _ => rfl) rfl]

end DaemonRecord

/- JSON as the host writes it. -/
@[reducible] def hostJson : DaemonJson where
  marshal r := some (encode (Json.write r.members))
  decode line :=
    (Json.read (readRunes line)).bind
      (fun ms => ms.foldlM DaemonRecord.put .zero)
  decode_marshal := by
    rintro r line ⟨⟩
    rw [readRunes_encode, Json.read_write, Option.bind_some]
    exact DaemonRecord.foldlM_members r

section

attribute [local instance] Name.asciiCase hostJson

/- The daemon is open, at some time. -/
def openView : DaemonEventView where
  toDaemonFields := .empty
  timestamp := "2026-02-09T00:00:00Z".toList
  code := "daemon.open".toList
  restartAttempt := 0
  startLimitBurst := none
  startLimitRemaining := none

def openLine : List UInt8 :=
  encode
    ("\x7b\"v\":1,\"timestamp\":\"2026-02-09T00:00:00Z\"," ++
      "\"code\":\"daemon.open\"\x7d").toList

theorem encode_openView :
    encodeDaemonEvent openView.timestamp openView.event =
      some (openLine, openView) := by
  decide +kernel

theorem daemonEvent_roundTrip_open :
    encodeDaemonEvent openView.timestamp openView.event =
        some (openLine, openView) ∧
      decodeDaemonEvent openLine = some openView ∧
      viewFromRecord (openView.event.record openView.timestamp) =
        openView := by
  have hDecode :=
    (daemonEvent_roundTrip.1 _ _ _ _ encode_openView).2.2.2
  exact ⟨encode_openView, hDecode, daemonEvent_roundTrip.2 _ _ hDecode⟩

/-
  An angle bracket that is not escaped in the line that is read
  is escaped when the event is written, and then its number and
  the letters after it are a forbidden fragment.
-/
theorem read_text_omitted :
    ∃ line view next,
      decodeDaemonEvent line = some view ∧
      (encodeDaemonEvent view.timestamp view.event).map Prod.snd =
        some next ∧
      view.unit = "<redman:".toList ∧ next.unit = [] := by
  refine
    ⟨encode
        ("\x7b\"v\":1,\"timestamp\":\"2026-02-09T00:00:00Z\"," ++
          "\"code\":\"daemon.open\",\"unit\":\"<redman:\"\x7d").toList,
      { openView with unit := "<redman:".toList }, openView, ?_, ?_,
      rfl, rfl⟩
  · decide +kernel
  · decide +kernel

end

end Journal

end Winunitd
