/-!
# AwaitLint — timestamps in YAML

A timestamp is a date, a date with the time of day after blanks, or a date with
the time of day after `T` and a time zone. Only days of the calendar count.
-/

namespace AwaitLint.Yaml.Timestamp

/-- The number of one or two digits at the head of a text, and the rest. -/
def short? : List Char → Option (Nat × List Char)
  | a :: cs =>
    let first := a.toNat - '0'.toNat
    if !a.isDigit then none
    else
      match cs with
      | b :: rest =>
        if b.isDigit then some (10 * first + (b.toNat - '0'.toNat), rest) else some (first, cs)
      | [] => some (first, [])
  | [] => none

/-- The number of two digits at the head of a text, and the rest. -/
def pair? : List Char → Option (Nat × List Char)
  | a :: b :: cs => if a.isDigit && b.isDigit then short? (a :: b :: cs) else none
  | _ => none

/-- The text after a given character. -/
def after? (c : Char) : List Char → Option (List Char)
  | d :: cs => if d = c then some cs else none
  | [] => none

/-- Whether a year has a leap day. -/
def isLeap (year : Nat) : Bool := year % 4 == 0 && (year % 100 != 0 || year % 400 == 0)

/-- The number of days in a month. -/
def daysIn (year month : Nat) : Nat :=
  if month = 2 then if isLeap year then 29 else 28
  else if [4, 6, 9, 11].contains month then 30
  else 31

/-- Drops a date at the head of a text. -/
def date? (cs : List Char) : Option (List Char) := do
  let (century, cs) ← pair? cs
  let (year, cs) ← pair? cs
  let (month, cs) ← short? (← after? '-' cs)
  let (day, cs) ← short? (← after? '-' cs)
  if 1 ≤ month && month ≤ 12 && 1 ≤ day && day ≤ daysIn (100 * century + year) month then some cs
  else none

/-- Drops a time of day at the head of a text, with parts of a second. -/
def clock? (cs : List Char) : Option (List Char) := do
  let (hour, cs) ← short? cs
  let (minute, cs) ← short? (← after? ':' cs)
  let (second, cs) ← short? (← after? ':' cs)
  if hour < 24 && minute < 60 && second < 60 then
    match cs with
    | point :: d :: rest =>
      if (point = '.' || point = ',') && d.isDigit then some (rest.dropWhile Char.isDigit)
      else some cs
    | _ => some cs
  else none

/-- Drops a time zone at the head of a text. -/
def zone? : List Char → Option (List Char)
  | 'Z' :: cs => some cs
  | sign :: cs => do
    let (hours, cs) ← pair? cs
    let (minutes, cs) ← pair? (← after? ':' cs)
    if (sign = '+' || sign = '-') && hours ≤ 24 && minutes ≤ 60 then some cs else none
  | [] => none

end Timestamp

/-- Whether a text is a timestamp. -/
def isTimestamp (cs : List Char) : Bool :=
  match Timestamp.date? cs with
  | none => false
  | some [] => true
  | some (' ' :: rest) => Timestamp.clock? (rest.dropWhile (· == ' ')) = some []
  | some (t :: rest) =>
    (t = 'T' || t = 't') && (Timestamp.clock? rest).bind Timestamp.zone? = some []

end AwaitLint.Yaml
