import TemporalRTree.Lib.Digits

/-!
# `Lib.Calendar` — days, dates and their ISO text

The proleptic Gregorian calendar as programs compute it: day 1 is the first of January of the year 1, and a date
is found from the number of its day by taking off cycles of 400, 100, 4 and 1 years and then guessing the month
(`ofOrdinal`). A point in time is a number of microseconds, and `isoformat` writes it with fields of fixed width.

## Contents
- **Dates.** `ordinal_ofOrdinal`: the date found for a day is the date of that day.
- **Times.** `readTime_isoformat`: what `isoformat` writes for whole seconds is read back as the same time.
-/

namespace Calendar
open Digits

/-! ## Dates -/

def isLeap (year : Nat) : Bool := year % 4 = 0 && (year % 100 ≠ 0 || year % 400 = 0)

/-- The days before the first of January. -/
def daysBeforeYear (year : Nat) : Nat :=
  (year - 1) * 365 + (year - 1) / 4 - (year - 1) / 100 + (year - 1) / 400

/-- The days of a year before the first of a month. -/
def daysBeforeMonth (leap : Bool) (month : Nat) : Nat :=
  [0, 0, 31, 59, 90, 120, 151, 181, 212, 243, 273, 304, 334].getD month 0 +
    if 2 < month && leap then 1 else 0

/-- The number of the day with a date. -/
def ordinal (year month day : Nat) : Nat := daysBeforeYear year + daysBeforeMonth (isLeap year) month + day

/-- The month and the day of the month, from the number of days before it in its year. The first guess is right
    or one too late. -/
def monthDay (leap : Bool) (n : Nat) : Nat × Nat :=
  let month := (n + 50) / 32
  if n < daysBeforeMonth leap month then (month - 1, n - daysBeforeMonth leap (month - 1) + 1)
  else (month, n - daysBeforeMonth leap month + 1)

/-- The date of a day: year, month and day of the month. -/
def ofOrdinal (n : Nat) : Nat × Nat × Nat :=
  let n400 := (n - 1) / 146097
  let n := (n - 1) % 146097
  let n100 := n / 36524
  let n := n % 36524
  let n4 := n / 1461
  let n := n % 1461
  let n1 := n / 365
  let n := n % 365
  let year := n400 * 400 + n100 * 100 + n4 * 4 + n1 + 1
  -- the last day of a cycle of 4 or 400 years
  if n1 = 4 ∨ n100 = 4 then (year - 1, 12, 31)
  else (year, monthDay (isLeap year) n)

theorem monthDay_spec (leap : Bool) {n : Nat} (h : n < 365) :
    daysBeforeMonth leap (monthDay leap n).1 + (monthDay leap n).2 = n + 1 ∧ (monthDay leap n).1 < 100 ∧
      (monthDay leap n).2 < 100 := by
  revert n
  cases leap <;> decide +kernel

/-- The days before a year, by its place in the cycles. -/
theorem daysBeforeYear_cycles {a b c d : Nat} (hb : b ≤ 3) (hc : c ≤ 24) (hd : d ≤ 3) :
    daysBeforeYear (a * 400 + b * 100 + c * 4 + d + 1) = a * 146097 + b * 36524 + c * 1461 + d * 365 := by
  unfold daysBeforeYear
  omega

theorem isLeap_iff {year : Nat} : isLeap year = true ↔ year % 4 = 0 ∧ (year % 100 ≠ 0 ∨ year % 400 = 0) := by
  simp [isLeap]

/-- The last day of a leap year. -/
theorem ordinal_dec_31 {a b c : Nat} (hb : b ≤ 3) (hc : c ≤ 24) (hleap : c = 24 → b = 3) :
    ordinal (a * 400 + b * 100 + c * 4 + 3 + 1) 12 31 = a * 146097 + b * 36524 + c * 1461 + 3 * 365 + 366 := by
  have hyear : isLeap (a * 400 + b * 100 + c * 4 + 3 + 1) = true := by
    rw [isLeap_iff]
    omega
  rw [ordinal, daysBeforeYear_cycles hb hc (Nat.le_refl 3), hyear, show daysBeforeMonth true 12 = 335 from rfl]

/-- **The date found for a day is the date of that day.** -/
theorem ordinal_ofOrdinal {n : Nat} (h : 0 < n) :
    ordinal (ofOrdinal n).1 (ofOrdinal n).2.1 (ofOrdinal n).2.2 = n := by
  unfold ofOrdinal
  dsimp only
  -- the places of the day in the cycles
  generalize ha : (n - 1) / 146097 = a
  generalize hr : (n - 1) % 146097 = r
  generalize hb : r / 36524 = b
  generalize hr' : r % 36524 = r'
  generalize hc : r' / 1461 = c
  generalize hr'' : r' % 1461 = r''
  generalize hd : r'' / 365 = d
  generalize he : r'' % 365 = e
  have hn : n = a * 146097 + b * 36524 + c * 1461 + d * 365 + e + 1 := by omega
  split
  next hlast =>
    rcases eq_or_ne b 4 with rfl | hb4
    · -- the last day of 400 years
      have hyear : a * 400 + 4 * 100 + c * 4 + d + 1 - 1 = a * 400 + 3 * 100 + 24 * 4 + 3 + 1 := by omega
      rw [hyear, ordinal_dec_31 (Nat.le_refl 3) (Nat.le_refl 24) fun _ => rfl]
      omega
    · have hyear : a * 400 + b * 100 + c * 4 + d + 1 - 1 = a * 400 + b * 100 + c * 4 + 3 + 1 := by omega
      rw [hyear, ordinal_dec_31 (by omega) (by omega) (by omega)]
      omega
  next hmid =>
    obtain ⟨hday, -⟩ := monthDay_spec (isLeap (a * 400 + b * 100 + c * 4 + d + 1)) (show e < 365 by omega)
    dsimp only
    rw [ordinal, daysBeforeYear_cycles (by omega) (by omega) (by omega)]
    omega

/-- The fields of a date fit their widths. -/
theorem ofOrdinal_lt {n : Nat} (h : n ≤ 3652059) :
    (ofOrdinal n).1 < 10 ^ 4 ∧ (ofOrdinal n).2.1 < 10 ^ 2 ∧ (ofOrdinal n).2.2 < 10 ^ 2 := by
  unfold ofOrdinal
  dsimp only
  split
  · exact ⟨by dsimp only; omega, (by decide : 12 < 10 ^ 2), (by decide : 31 < 10 ^ 2)⟩
  · obtain ⟨-, hmonth, hday⟩ := monthDay_spec (isLeap ((n - 1) / 146097 * 400 + (n - 1) % 146097 / 36524 * 100 +
      (n - 1) % 146097 % 36524 / 1461 * 4 + (n - 1) % 146097 % 36524 % 1461 / 365 + 1))
      (Nat.mod_lt ((n - 1) % 146097 % 36524 % 1461) (by decide : 0 < 365))
    exact ⟨by dsimp only; omega, hmonth, hday⟩

/-! ## Times -/

/-- A second, in microseconds. -/
def second : Nat := 1000000

def hour : Nat := 3600 * second

def day : Nat := 24 * hour

/-- The start of a date, in microseconds since the start of day 1. -/
def ofDate (year month day : Nat) : Nat := (ordinal year month day - 1) * Calendar.day

/-- The ISO text of a time, with the microseconds where there are any. -/
def isoformat (t : Nat) : List Char :=
  let date := ofOrdinal (t / day + 1)
  let seconds := t % day / second
  padded 4 date.1 ++ '-' :: (padded 2 date.2.1 ++ '-' :: (padded 2 date.2.2 ++ 'T' ::
    (padded 2 (seconds / 3600) ++ ':' :: (padded 2 (seconds / 60 % 60) ++ ':' :: (padded 2 (seconds % 60) ++
      if t % second = 0 then [] else '.' :: padded 6 (t % second))))))

/-- Read one character that has to be there. -/
def readChar (c : Char) : List Char → Option (List Char)
  | [] => none
  | c' :: text => if c' = c then some text else none

/-- Read a time in whole seconds. -/
def readTime (text : List Char) : Option (Nat × List Char) := do
  let (year, text) ← readDigits 4 0 text
  let text ← readChar '-' text
  let (month, text) ← readDigits 2 0 text
  let text ← readChar '-' text
  let (day, text) ← readDigits 2 0 text
  let text ← readChar 'T' text
  let (hours, text) ← readDigits 2 0 text
  let text ← readChar ':' text
  let (minutes, text) ← readDigits 2 0 text
  let text ← readChar ':' text
  let (seconds, text) ← readDigits 2 0 text
  return (ofDate year month day + hours * hour + (minutes * 60 + seconds) * second, text)

@[simp] theorem readChar_cons (c : Char) (text : List Char) : readChar c (c :: text) = some text := if_pos rfl

/-- A time in whole seconds is the start of its day and the seconds of the day. -/
theorem time_eq {t : Nat} (hsec : t % second = 0) :
    t % day / second < 86400 ∧ t = t / day * day + t % day / second * second := by
  have hday : day = 86400000000 := rfl
  have hsecond : second = 1000000 := rfl
  rw [hsecond] at hsec
  rw [hday, hsecond]
  omega

section Steps
variable {α : Type} {w n : Nat} {c : Char} {text : List Char}

theorem readDigits_bind (h : n < 10 ^ w) {next : Nat × List Char → Option α} :
    (readDigits w 0 (padded w n ++ text)).bind next = next (n, text) := by
  rw [readDigits_field h, Option.bind_some]

theorem readChar_bind {next : List Char → Option α} : (readChar c (c :: text)).bind next = next text := by
  rw [readChar_cons, Option.bind_some]

end Steps

/-- The fields of a time are read one after the other. -/
theorem readTime_fields {year month d hours minutes seconds : Nat} (hyear : year < 10 ^ 4) (hmonth : month < 10 ^ 2)
    (hd : d < 10 ^ 2) (hhours : hours < 10 ^ 2) (hminutes : minutes < 10 ^ 2) (hseconds : seconds < 10 ^ 2)
    (rest : List Char) :
    readTime (padded 4 year ++ '-' :: (padded 2 month ++ '-' :: (padded 2 d ++ 'T' :: (padded 2 hours ++
      ':' :: (padded 2 minutes ++ ':' :: (padded 2 seconds ++ rest)))))) =
      some (ofDate year month d + hours * hour + (minutes * 60 + seconds) * second, rest) := by
  refine (readDigits_bind hyear).trans (readChar_bind.trans ?_)
  refine (readDigits_bind hmonth).trans (readChar_bind.trans ?_)
  refine (readDigits_bind hd).trans (readChar_bind.trans ?_)
  refine (readDigits_bind hhours).trans (readChar_bind.trans ?_)
  refine (readDigits_bind hminutes).trans (readChar_bind.trans ?_)
  exact readDigits_bind hseconds

/-- **What is written for whole seconds is read back.** -/
theorem readTime_isoformat {t : Nat} (h : t < 3652059 * day) (hsec : t % second = 0) (rest : List Char) :
    readTime (isoformat t ++ rest) = some (t, rest) := by
  have hday : t / day + 1 ≤ 3652059 := Nat.succ_le_of_lt (Nat.div_lt_of_lt_mul (by rwa [Nat.mul_comm] at h))
  obtain ⟨hyear, hmonth, hdate⟩ := ofOrdinal_lt hday
  have hord := ordinal_ofOrdinal (Nat.zero_lt_succ (t / day))
  rw [Nat.succ_eq_add_one] at hord
  obtain ⟨hlt, ht⟩ := time_eq hsec
  unfold isoformat
  rw [if_pos hsec]
  dsimp only
  generalize t % day / second = x at hlt ht ⊢
  simp only [List.append_nil, List.append_assoc, List.cons_append]
  rw [readTime_fields hyear hmonth hdate (by omega) (by omega) (by omega)]
  have htime : ofDate (ofOrdinal (t / day + 1)).1 (ofOrdinal (t / day + 1)).2.1 (ofOrdinal (t / day + 1)).2.2 +
      x / 3600 * hour + (x / 60 % 60 * 60 + x % 60) * second = t := by
    have hhour : hour = 3600000000 := rfl
    have hsecond : second = 1000000 := rfl
    rw [hsecond] at ht
    rw [ofDate, hord, Nat.add_sub_cancel, hhour, hsecond]
    omega
  rw [htime]

end Calendar
