import LuauTidy.Text.Basic

/-!
# TOML dates and times

A moment is a date, a time of day, or a date with a time of day.  The latter
may say how far its clock is from the universal one.  Dates are days of the
Gregorian calendar; seconds may be left out, may have a fraction, and go up to
the leap second.

* `Toml.daysInMonth` — the calendar;
* `Toml.afterDate?`, `Toml.afterClock?` — what follows a date or a time of day;
* `Toml.isMoment` — a text that is a moment.
-/

namespace LuauTidy.Toml

/-- The number of exactly so many digits, and what follows them. -/
def digits? (count : Nat) (t : Text) : Option (Nat × Text) :=
  let digits := t.take count
  if digits.length = count && digits.all Char.isDigit then
    some (digits.foldl (fun n c => n * 10 + (c.toNat - '0'.toNat)) 0, t.drop count)
  else none

/-- What follows a character that a text has to start with. -/
def afterChar? (c : Char) : Text → Option Text
  | [] => none
  | d :: rest => if d = c then some rest else none

/-- Every fourth year is a leap year, but of the full centuries only every
fourth one. -/
def isLeapYear (year : Nat) : Bool := year % 4 == 0 && (year % 100 != 0 || year % 400 == 0)

/-- The number of days of a month. -/
def daysInMonth (year : Nat) : (month : Nat) → Nat
  | 2 => if isLeapYear year then 29 else 28
  | 4 | 6 | 9 | 11 => 30
  | _ => 31

/-- What follows the date that a text starts with. -/
def afterDate? (t : Text) : Option Text := do
  let (year, t) ← digits? 4 t
  let (month, t) ← digits? 2 (← afterChar? '-' t)
  let (day, t) ← digits? 2 (← afterChar? '-' t)
  if 1 ≤ month ∧ month ≤ 12 ∧ 1 ≤ day ∧ day ≤ daysInMonth year month then some t else none

/-- What follows hours and minutes. -/
def afterMinutes? (t : Text) : Option Text := do
  let (hour, t) ← digits? 2 t
  let (minute, t) ← digits? 2 (← afterChar? ':' t)
  if hour ≤ 23 ∧ minute ≤ 59 then some t else none

/-- What follows the fraction of a second, which may be missing. -/
def afterFraction? : Text → Option Text
  | '.' :: c :: rest => if c.isDigit then some (rest.dropWhile Char.isDigit) else none
  | '.' :: [] => none
  | t => some t

/-- What follows the time of day that a text starts with. -/
def afterClock? (t : Text) : Option Text := do
  match ← afterMinutes? t with
  | ':' :: t =>
    let (second, t) ← digits? 2 t
    if second ≤ 60 then afterFraction? t else none
  | t => some t

/-- The distance of a clock from the universal one, which may be missing. -/
def isOffset : Text → Bool
  | [] => true
  | ['Z'] | ['z'] => true
  | sign :: t => (sign == '+' || sign == '-') && afterMinutes? t == some []

/-- A text that is a date. -/
def isDate (t : Text) : Bool := afterDate? t == some []

/-- A text that is a moment. -/
def isMoment (t : Text) : Bool :=
  match afterDate? t with
  | some [] => true
  | some (mark :: rest) =>
    (mark == 'T' || mark == 't' || mark == ' ') && (afterClock? rest).any isOffset
  | none => afterClock? t == some []

end LuauTidy.Toml
