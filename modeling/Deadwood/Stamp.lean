import Deadwood.Number.Digits
import Deadwood.Text.Utf8

/-!
# Points in time

A stamp is a date with a time of day and, possibly, an offset from universal time. It is written as
`2024-01-02T03:04:05`, with a fraction and an offset where it has one. Reading is more generous: the
dashes and colons may be missing, the date may be given by week and day of the week, any character
may stand between date and time, and the time may be cut short.
-/

set_option autoImplicit false

namespace Deadwood

/-- A date with a time of day. -/
structure Stamp where
  year : Nat
  month : Nat
  day : Nat
  hour : Nat := 0
  minute : Nat := 0
  second : Nat := 0
  /-- Millionths of a second. -/
  fraction : Nat := 0
  /-- The offset from universal time in millionths of a second. -/
  offset : Option Int := none
  deriving DecidableEq, Repr, Inhabited

namespace Stamp

/-- Why a text is no point in time. -/
inductive Fault where
  /-- The text has another form. -/
  | form (text : String)
  | year (n : Nat)
  | month
  | day
  | hour
  | minute
  | second
  /-- The offset, in millionths of a second, is a day or more. -/
  | offset (n : Int)
  deriving DecidableEq, Repr

/-- A span of time as messages show it: in days, seconds and millionths of a second, of which only
the days may be negative. -/
def shownSpan (n : Int) : String :=
  let days := Int.fdiv n 86400000000
  let rest := (Int.fmod n 86400000000).toNat
  let part (name : String) (n : Int) : List String :=
    if n = 0 then [] else [name ++ "=" ++ String.ofList (Number.signedDigits n)]
  let parts := part "days" days ++ part "seconds" (rest / 1000000 : Nat) ++
    part "microseconds" (rest % 1000000 : Nat)
  "datetime.timedelta(" ++ (if parts.isEmpty then "0" else ", ".intercalate parts) ++ ")"

/-- The wording of a fault. -/
def Fault.message : Fault → String
  | .form text => "Invalid isoformat string: " ++ Text.quoted text
  | .year n => "year " ++ toString n ++ " is out of range"
  | .month => "month must be in 1..12"
  | .day => "day is out of range for month"
  | .hour => "hour must be in 0..23"
  | .minute => "minute must be in 0..59"
  | .second => "second must be in 0..59"
  | .offset n =>
    "offset must be a timedelta strictly between -timedelta(hours=24) and timedelta(hours=24), not "
      ++ shownSpan n ++ "."

/-! ## The calendar -/

/-- The year has a 29th of February. -/
def isLeap (year : Nat) : Bool := year % 4 == 0 && (year % 100 != 0 || year % 400 == 0)

/-- The number of days of each month of a year. -/
def monthLengths (year : Nat) : List Nat :=
  [31, if isLeap year then 29 else 28, 31, 30, 31, 30, 31, 31, 30, 31, 30, 31]

/-- The number of days from the first day of the year one to the last day before a year. -/
def daysBefore (year : Nat) : Nat :=
  let y := year - 1
  y * 365 + y / 4 - y / 100 + y / 400

/-- The month and day of the day with the given number, from one, in a year. -/
def monthAndDay (day : Nat) : (lengths : List Nat) → (month : Nat) → Nat × Nat
  | [], month => (month, day)
  | length :: lengths, month =>
    if day ≤ length then (month, day) else monthAndDay (day - length) lengths (month + 1)

/-- The date of a day counted from the first day of the year one, which lies in `year` or in a year
next to it. -/
def dateOf (year count : Nat) : Nat × Nat × Nat :=
  let year :=
    if count ≤ daysBefore year then year - 1
    else if daysBefore (year + 1) < count then year + 1
    else year
  (year, monthAndDay (count - daysBefore year) (monthLengths year) 1)

/-- The day of the week on which a year begins, Monday being zero. -/
def firstWeekday (year : Nat) : Nat := daysBefore year % 7

/-- The year has a 53rd week. -/
def hasLongWeeks (year : Nat) : Bool :=
  firstWeekday year == 3 || (firstWeekday year == 2 && isLeap year)

/-- The date of a day of a week, if there is such a week and such a day. Before the year one there
are no months. -/
def weekDate? (year week day : Nat) : Option (Nat × Nat × Nat) :=
  if week = 0 ∨ 53 < week ∨ (week = 53 ∧ !hasLongWeeks year) ∨ day = 0 ∨ 7 < day then none
  else if year = 0 then some (1, 0, 0)
  else
    -- the first week is the one with the first Thursday
    let first := firstWeekday year
    let monday : Int := daysBefore year + 1 - first + (if 3 < first then 7 else 0)
    some (dateOf year (monday + (week - 1) * 7 + (day - 1)).toNat)

/-! ## Reading -/

/-- Exactly `count` digits, and what follows them. -/
def digits? (count : Nat) (cs : List Char) : Option (Nat × List Char) :=
  let run := cs.take count
  if run.length = count ∧ run.all Char.isDigit then some (Number.ofDigits run, cs.drop count)
  else none

/-- How many characters the date takes at the beginning of a text. -/
def dateLength (cs : List Char) : Nat :=
  let at? (n : Nat) (p : Char → Bool) : Bool := (cs.drop n).head?.any p
  if cs.length = 7 then 7
  else if at? 4 (· == '-') then
    if at? 5 (· == 'W') then
      if at? 8 (· == '-') && !(at? 10 Char.isDigit) then 10 else 8
    else 10
  else if at? 4 (· == 'W') then
    let stop := 7 + ((cs.drop 7).takeWhile Char.isDigit).length
    if stop < 9 then stop else if stop % 2 = 0 then 7 else 8
  else 8

/-- Drop a dash if dashes are used. -/
def dash? (used : Bool) : List Char → Option (List Char)
  | '-' :: cs => if used then some cs else none
  | cs => if used then none else some cs

/-- The date that a text of the right length stands for. -/
def date? (cs : List Char) : Option (Nat × Nat × Nat) := do
  let (year, rest) ← digits? 4 cs
  let dashes := rest.head? == some '-'
  match (if dashes then rest.drop 1 else rest) with
  | 'W' :: rest =>
    let (week, rest) ← digits? 2 rest
    if rest.isEmpty then weekDate? year week 1
    else
      let (day, _) ← digits? 1 (← dash? dashes rest)
      weekDate? year week day
  | rest =>
    let (month, rest) ← digits? 2 rest
    let (day, rest) ← digits? 2 (← dash? dashes rest)
    if rest.isEmpty then some (year, month, day) else none

/-- A time of day as it was read. -/
structure Clock where
  hour : Nat := 0
  minute : Nat := 0
  second : Nat := 0
  fraction : Nat := 0
  /-- Something was left unread. -/
  unread : Bool := false
  deriving DecidableEq, Repr

/-- The digits after the seconds: six count, and further ones are passed over. `more` tells that the
text goes on after what is given here. -/
def fraction? (more : Bool) (clock : Clock) (cs : List Char) : Option Clock := do
  let count := min 6 cs.length
  let (n, rest) ← digits? count cs
  let rest := rest.dropWhile Char.isDigit
  return { clock with fraction := n * Nat.pow 10 (6 - count), unread := !rest.isEmpty || more }

/-- What follows one part of a time of day. -/
inductive Next where
  /-- Nothing more to read, with or without something left over. -/
  | finished (unread : Bool)
  | part (cs : List Char)
  | fraction (cs : List Char)

/-- Look past one part of a time of day. A single character after it is left over. -/
def next? (more colons : Bool) : List Char → Option Next
  | [] => some (.finished more)
  | [_] => some (.finished true)
  | c :: cs =>
    if colons && c == ':' then some (.part cs)
    else if c == '.' || c == ',' then some (.fraction cs)
    else if colons then none
    else some (.part (c :: cs))

/-- A time of day: hours, then minutes, then seconds, then a fraction. `more` tells that the text
goes on after what is given here. -/
def clock? (more : Bool) (cs : List Char) : Option Clock := do
  let (hour, rest) ← digits? 2 cs
  let colons := rest.head? == some ':'
  match ← next? more colons rest with
  | .finished unread => some { hour, unread }
  | .fraction cs => fraction? more { hour } cs
  | .part cs =>
    let (minute, rest) ← digits? 2 cs
    match ← next? more colons rest with
    | .finished unread => some { hour, minute, unread }
    | .fraction cs => fraction? more { hour, minute } cs
    | .part cs =>
      let (second, rest) ← digits? 2 cs
      match ← next? more colons rest with
      | .finished unread => some { hour, minute, second, unread }
      | .fraction cs => fraction? more { hour, minute, second } cs
      | .part cs => fraction? more { hour, minute, second } cs

/-- A time of day with an offset. An offset without whole seconds is none at all. -/
def time? (cs : List Char) : Option (Clock × Option Int) := do
  let isMark (c : Char) : Bool := c == '+' || c == '-' || c == 'Z'
  let tail := cs.dropWhile (!isMark ·)
  let clock ← clock? (!tail.isEmpty) (cs.takeWhile (!isMark ·))
  match tail with
  | [] => if clock.unread then none else some (clock, none)
  | ['Z'] => some (clock, some 0)
  | 'Z' :: _ => none
  | sign :: zone =>
    let zone ← clock? false zone
    if zone.unread then none
    else
      let seconds := zone.hour * 3600 + zone.minute * 60 + zone.second
      let total : Int := if seconds = 0 then 0 else (seconds * 1000000 + zone.fraction : Nat)
      some (clock, some (if sign = '-' then -total else total))

/-- The first part of a stamp that no calendar or clock has. -/
def fault? (s : Stamp) : Option Fault :=
  if s.offset.any fun n => 86400000000 ≤ n.natAbs then s.offset.map .offset
  else if s.year = 0 ∨ 9999 < s.year then some (.year s.year)
  else if s.month = 0 ∨ 12 < s.month then some .month
  else if s.day = 0 ∨ ((monthLengths s.year).drop (s.month - 1)).headD 0 < s.day then some .day
  else if 23 < s.hour then some .hour
  else if 59 < s.minute then some .minute
  else if 59 < s.second then some .second
  else none

/-- The number of units that the encoding of a character takes, by the first of them. -/
def unitCount (unit : Char) : Nat :=
  if unit.toNat < 0x80 then 1
  else if unit.toNat < 0xe0 then 2
  else if unit.toNat < 0xf0 then 3
  else 4

/-- The parts of the stamp that a text stands for, given by the units of its encoding. Between date
and time stands one character of any kind. -/
def parts? (units : List Char) : Option Stamp := do
  if units.length < 7 then none
  else
    let length := dateLength units
    let (year, month, day) ← date? (units.take length)
    match units.drop length with
    | [] => some { year, month, day }
    | unit :: rest =>
      let (clock, offset) ← time? ((unit :: rest).drop (unitCount unit))
      some {
        year, month, day, offset
        hour := clock.hour, minute := clock.minute, second := clock.second
        fraction := clock.fraction }

/-- The units of the encoding of a text, one character for each byte. -/
def unitsOf (text : String) : List Char :=
  (Text.Utf8.encode text.toList).map fun byte => Char.ofNat byte.toNat

/-- The point in time that a text stands for. -/
def read (text : String) : Except Fault Stamp :=
  match parts? (unitsOf text) with
  | none => .error (.form text)
  | some stamp =>
    match stamp.fault? with
    | some fault => .error fault
    | none => .ok stamp

/-! ## Writing -/

/-- At least `width` digits, filled up with zeros. -/
def padded (width n : Nat) : List Char :=
  let cs := Number.digits n
  List.replicate (width - cs.length) '0' ++ cs

/-- A fraction of a second, unless it is zero. -/
def writeFraction (n : Nat) : List Char := if n = 0 then [] else '.' :: padded 6 n

/-- An offset, with seconds and a fraction only where it has them. -/
def writeOffset (n : Int) : List Char :=
  let size := n.natAbs
  let seconds := size / 1000000
  (if n < 0 then '-' else '+') :: padded 2 (seconds / 3600) ++
    ':' :: padded 2 (seconds / 60 % 60) ++
    (if seconds % 60 = 0 ∧ size % 1000000 = 0 then []
      else ':' :: padded 2 (seconds % 60) ++ writeFraction (size % 1000000))

/-- The text of a stamp. -/
def write (s : Stamp) : String :=
  String.ofList <|
    padded 4 s.year ++ '-' :: padded 2 s.month ++ '-' :: padded 2 s.day ++ 'T' :: padded 2 s.hour ++
      ':' :: padded 2 s.minute ++ ':' :: padded 2 s.second ++ writeFraction s.fraction ++
      (match s.offset with
        | none => []
        | some n => writeOffset n)

/-- The stamp as digits alone, date and time apart: the name of a run that began then. -/
def compact (s : Stamp) : String :=
  String.ofList <|
    padded 4 s.year ++ padded 2 s.month ++ padded 2 s.day ++ '-' :: padded 2 s.hour ++
      padded 2 s.minute ++ padded 2 s.second

end Stamp

end Deadwood
