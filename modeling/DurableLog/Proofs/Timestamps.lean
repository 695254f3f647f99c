import DurableLog.Time.Rfc3339

/-!
# What a timestamp tells

The RFC 3339 text of an instant tells the instant (`Rfc3339.text_inj`): its parts stand between
signs that are not in them, and each of them can be read back.

* A date is read back to the day it is computed from (`Date.toDays_ofDays`). Both ways count years
  and months from March (`Date.fromMarch`), where a month's first day is linear in the month.
* A numeral is read back, with zeros in front of it or without (`Text.value_zeroPadded`).
* A fraction is read back once zeros are put behind it up to nine digits
  (`Rfc3339.value_nineDigits`).
* Second 60 is told from second 59 of the next minute because an instant reaches into a leap second
  only at the end of a minute.
-/

namespace DurableLog

/-! ## Dates -/

namespace Date

/-- The year of an era that a day of it is in, and how far the day is into this year. -/
theorem year_of_day {day : Nat} (lt : day < 146097) :
    let year := (day - day / 1460 + day / 36524 - day / 146096) / 365
    year ≤ 399 ∧ 365 * year + year / 4 - year / 100 ≤ day ∧
      day - (365 * year + year / 4 - year / 100) ≤ 365 := by
  intro year
  have year_eq : year = (day - day / 1460 + day / 36524 - day / 146096) / 365 := rfl
  clear_value year
  -- within a century no leap year is left out
  have century : day / 36524 = 0 ∨ day / 36524 = 1 ∨ day / 36524 = 2 ∨ day / 36524 = 3 ∨
      day / 36524 = 4 := by omega
  rcases century with c | c | c | c | last
  · have : year / 100 = 0 := by omega
    omega
  · have : year / 100 = 1 := by omega
    omega
  · have : year / 100 = 2 := by omega
    omega
  · have : year / 100 = 3 := by omega
    omega
  · omega

/-- The month of a year that a day of it is in, and its first day. -/
theorem month_of_day {day : Nat} (le : day ≤ 365) :
    let month := (5 * day + 2) / 153
    month ≤ 11 ∧ (153 * month + 2) / 5 ≤ day := by
  intro month
  have month_eq : month = (5 * day + 2) / 153 := rfl
  clear_value month
  omega

/-- The date with this day of a month and this month and year of an era, all counted from March. -/
def fromMarch (era : Int) (year month day : Nat) : Date :=
  let calendarMonth := if month < 10 then month + 3 else month - 9
  ⟨era * 400 + year + (if calendarMonth ≤ 2 then 1 else 0), calendarMonth, day⟩

/-- How many days from 1970-01-01 this is. -/
def daysFromMarch (era : Int) (year month day : Nat) : Int :=
  era * 146097 + (365 * year + year / 4 - year / 100 : Nat) +
    ((153 * month + 2) / 5 + day - 1 : Nat) - 719468

theorem toDays_fromMarch {era : Int} {year month day : Nat} (year_le : year ≤ 399)
    (month_le : month ≤ 11) (one_le : 1 ≤ day) :
    (fromMarch era year month day).toDays = daysFromMarch era year month day := by
  unfold daysFromMarch
  by_cases late : month < 10
  · have back : (month + 3 + 9) % 12 = month := by omega
    simp only [fromMarch, toDays, if_pos late, back, if_neg (show ¬ month + 3 ≤ 2 by omega)]
    omega
  · have back : (month - 9 + 9) % 12 = month := by omega
    simp only [fromMarch, toDays, if_neg late, back, if_pos (show month - 9 ≤ 2 by omega)]
    omega

/-- Every day has a date. -/
theorem exists_fromMarch (days : Int) :
    ∃ era : Int, ∃ year month day : Nat, (year ≤ 399 ∧ month ≤ 11 ∧ 1 ≤ day) ∧
      ofDays days = fromMarch era year month day ∧ days = daysFromMarch era year month day := by
  let era := (days + 719468) / 146097
  let dayOfEra := (days + 719468 - era * 146097).toNat
  have dayOfEra_lt : dayOfEra < 146097 := by omega
  have days_eq : days = era * 146097 + dayOfEra - 719468 := by omega
  obtain ⟨year_le, start_le, dayOfYear_le⟩ := year_of_day dayOfEra_lt
  obtain ⟨month_le, first_le⟩ := month_of_day dayOfYear_le
  refine ⟨era, _, _, _, ⟨year_le, month_le, Nat.le_add_left 1 _⟩, rfl, ?_⟩
  unfold daysFromMarch
  -- from here on the quotients are just numbers
  generalize (dayOfEra - dayOfEra / 1460 + dayOfEra / 36524 - dayOfEra / 146096) / 365 = year at *
  generalize 365 * year + year / 4 - year / 100 = start at *
  generalize (5 * (dayOfEra - start) + 2) / 153 = month at *
  generalize (153 * month + 2) / 5 = first at *
  omega

/-- A day is read back from its date. -/
@[simp] theorem toDays_ofDays (days : Int) : (ofDays days).toDays = days := by
  obtain ⟨era, year, month, day, ⟨year_le, month_le, one_le⟩, date, days_eq⟩ :=
    exists_fromMarch days
  rw [date, toDays_fromMarch year_le month_le one_le, ← days_eq]

end Date

/-! ## Numerals -/

namespace Text

/-- What a numeral says. -/
def value (digits : List Char) : Nat := Nat.ofDigitChars 10 digits 0

@[simp] theorem value_numeral (n : Nat) : value (numeral n) = n :=
  Nat.ofDigitChars_toDigits (by decide) (by decide)

/-- Zeros in front of a numeral do not change it. -/
@[simp] theorem value_zeroPadded (w n : Nat) : value (padLeft w '0' (numeral n)) = n := by
  have zeros (k : Nat) : value (List.replicate k '0') = 0 := by
    induction k with
    | zero => rfl
    | succ k ih => exact ih
  rw [value, padLeft, Nat.ofDigitChars_append, ← value, zeros]
  exact value_numeral n

theorem isDigit_of_mem_numeral {n : Nat} {c : Char} (h : c ∈ numeral n) : c.isDigit :=
  Nat.isDigit_of_mem_toDigits (by decide) (by decide) h

theorem isDigit_of_mem_zeroPadded {w n : Nat} {c : Char} (h : c ∈ padLeft w '0' (numeral n)) :
    c.isDigit := by
  rcases List.mem_append.mp h with zero | digit
  · rw [List.eq_of_mem_replicate zero]
    rfl
  · exact isDigit_of_mem_numeral digit

/-- A numeral begins with a digit. -/
theorem exists_cons_numeral (n : Nat) : ∃ c rest, numeral n = c :: rest ∧ c.isDigit := by
  have some : numeral n ≠ [] := List.length_pos_iff.mp Nat.length_toDigits_pos
  obtain ⟨c, rest, digits⟩ := List.exists_cons_of_ne_nil some
  exact ⟨c, rest, digits, isDigit_of_mem_numeral (digits ▸ List.mem_cons_self)⟩

@[simp] theorem toList_zeroPadded (w n : Nat) :
    (zeroPadded w n).toList = padLeft w '0' (numeral n) := String.toList_ofList

/-! ## Where a part of a text ends -/

/-- Texts agree up to where a kind of character ends, and behind it. -/
theorem eq_of_span {p : Char → Bool} {front front' back back' : List Char}
    (all : ∀ c ∈ front, p c) (all' : ∀ c ∈ front', p c) (stop : ∀ c ∈ back.head?, p c = false)
    (stop' : ∀ c ∈ back'.head?, p c = false) (h : front ++ back = front' ++ back') :
    front = front' ∧ back = back' := by
  have span {front back : List Char} (all : ∀ c ∈ front, p c)
      (stop : ∀ c ∈ back.head?, p c = false) : (front ++ back).takeWhile p = front := by
    rw [List.takeWhile_append_of_pos all]
    cases back with
    | nil => simp
    | cons c rest => simp [stop c rfl]
  have fronts := congrArg (List.takeWhile p) h
  rw [span all stop, span all' stop'] at fronts
  subst fronts
  exact ⟨rfl, List.append_cancel_left h⟩

variable {w w' n n' : Nat} {back back' : List Char}

/-- A numeral tells its number, and where it ends. -/
theorem numeral_append_inj (stop : ∀ c ∈ back.head?, c.isDigit = false)
    (stop' : ∀ c ∈ back'.head?, c.isDigit = false) (h : numeral n ++ back = numeral n' ++ back') :
    n = n' ∧ back = back' := by
  obtain ⟨digits, backs⟩ := eq_of_span (p := Char.isDigit) (fun _ => isDigit_of_mem_numeral)
    (fun _ => isDigit_of_mem_numeral) stop stop' h
  exact ⟨by simpa using congrArg value digits, backs⟩

theorem zeroPadded_append_inj (stop : ∀ c ∈ back.head?, c.isDigit = false)
    (stop' : ∀ c ∈ back'.head?, c.isDigit = false)
    (h : padLeft w '0' (numeral n) ++ back = padLeft w' '0' (numeral n') ++ back') :
    n = n' ∧ back = back' := by
  obtain ⟨digits, backs⟩ := eq_of_span (p := Char.isDigit) (fun _ => isDigit_of_mem_zeroPadded)
    (fun _ => isDigit_of_mem_zeroPadded) stop stop' h
  exact ⟨by simpa using congrArg value digits, backs⟩

theorem column_append_inj (stop : ∀ c ∈ back.head?, c.isDigit = false)
    (stop' : ∀ c ∈ back'.head?, c.isDigit = false)
    (h : (column w n).toList ++ back = (column w' n').toList ++ back') : n = n' ∧ back = back' := by
  have blanks (k : Nat) : ∀ c ∈ List.replicate k ' ', c == ' ' := by simp
  have begins (n : Nat) (back : List Char) :
      ∀ c ∈ (numeral n ++ back).head?, (c == ' ') = false := by
    obtain ⟨first, rest, digits, digit⟩ := exists_cons_numeral n
    rw [digits]
    rintro c ⟨⟩
    rw [beq_eq_false_iff_ne]
    rintro rfl
    cases digit
  simp only [column, String.toList_ofList, padLeft, List.append_assoc] at h
  obtain ⟨-, h⟩ := eq_of_span (p := (· == ' ')) (blanks _) (blanks _) (begins _ _) (begins _ _) h
  exact numeral_append_inj stop stop' h

end Text

/-! ## Timestamps -/

namespace Rfc3339

open Text

/-- A year is a numeral with a sign in front of it or without. -/
theorem toList_yearText (year : Int) :
    (yearText year).toList =
      if 0 ≤ year ∧ year ≤ 9999 then padLeft 4 '0' (numeral year.natAbs)
      else (if year < 0 then '-' else '+') :: padLeft 4 '0' (numeral year.natAbs) := by
  unfold yearText
  split
  · next plain =>
    have toNat : year.toNat = year.natAbs := by omega
    rw [toList_zeroPadded, toNat]
  · split <;> simp

/-- The text of a year tells it, and where it ends. -/
theorem yearText_append_inj {year year' : Int} {back back' : List Char}
    (stop : ∀ c ∈ back.head?, c.isDigit = false) (stop' : ∀ c ∈ back'.head?, c.isDigit = false)
    (h : (yearText year).toList ++ back = (yearText year').toList ++ back') :
    year = year' ∧ back = back' := by
  have sign_ne_digit {sign : Char} {year : Int} (n : Nat) {rest rest' : List Char}
      (is_sign : sign = if year < 0 then '-' else '+') :
      sign :: rest ≠ padLeft 4 '0' (numeral n) ++ rest' := by
    obtain ⟨c, others, digits, -⟩ := exists_cons_numeral n
    have some : padLeft 4 '0' (numeral n) ≠ [] := by simp [padLeft, digits]
    obtain ⟨first, after, padded⟩ := List.exists_cons_of_ne_nil some
    have digit : first.isDigit := isDigit_of_mem_zeroPadded (padded ▸ List.mem_cons_self)
    rw [padded]
    intro same
    rw [← (List.cons.inj same).1, is_sign] at digit
    split at digit <;> cases digit
  rw [toList_yearText, toList_yearText] at h
  by_cases plain : 0 ≤ year ∧ year ≤ 9999
  · by_cases plain' : 0 ≤ year' ∧ year' ≤ 9999
    · rw [if_pos plain, if_pos plain'] at h
      obtain ⟨same, backs⟩ := zeroPadded_append_inj stop stop' h
      exact ⟨by omega, backs⟩
    · rw [if_pos plain, if_neg plain'] at h
      exact absurd h.symm (sign_ne_digit _ rfl)
  · by_cases plain' : 0 ≤ year' ∧ year' ≤ 9999
    · rw [if_neg plain, if_pos plain'] at h
      exact absurd h (sign_ne_digit _ rfl)
    · rw [if_neg plain, if_neg plain'] at h
      obtain ⟨signs, h⟩ := List.cons.inj h
      obtain ⟨same, backs⟩ := zeroPadded_append_inj stop stop' h
      have sign_iff : year < 0 ↔ year' < 0 := by
        by_cases before : year < 0 <;> by_cases before' : year' < 0 <;>
          simp [before, before'] at signs ⊢
      exact ⟨by omega, backs⟩

/-- The digits behind the point of a fraction, with zeros behind them up to nine. -/
def nineDigits (fraction : List Char) : List Char :=
  fraction.tail ++ List.replicate (10 - fraction.length) '0'

theorem nineDigits_point {w n : Nat} (fits : (numeral n).length ≤ w) {zeros : Nat}
    (nine : w + zeros = 9) :
    nineDigits ("." ++ zeroPadded w n).toList =
      padLeft w '0' (numeral n) ++ List.replicate zeros '0' := by
  have chars : ("." ++ zeroPadded w n).toList = '.' :: padLeft w '0' (numeral n) := by simp
  have rest : 10 - (w + 1) = zeros := by omega
  rw [nineDigits, chars, List.tail_cons, List.length_cons, length_padLeft, Nat.max_eq_left fits,
    rest]

/-- Three zeros behind a numeral. -/
theorem value_append_zeros (digits : List Char) :
    value (digits ++ List.replicate 3 '0') = value digits * 1000 := by
  rw [value, Nat.ofDigitChars_append, ← value]
  simp only [List.replicate, Nat.ofDigitChars_cons, Nat.ofDigitChars_nil]
  omega

/-- A fraction is read from its nine digits. -/
theorem value_nineDigits {nanos : Nat} (lt : nanos < 1000000000) :
    value (nineDigits (fractionText nanos).toList) = nanos := by
  have six : List.replicate 6 '0' = List.replicate 3 '0' ++ List.replicate 3 '0' := rfl
  unfold fractionText
  split
  · next whole => exact whole.symm
  · split
    · next millis =>
      have fits : (numeral (nanos / 1000000)).length ≤ 3 :=
        (Nat.length_toDigits_le_iff (by decide) (by decide)).mpr (by omega)
      rw [nineDigits_point fits (show 3 + 6 = 9 from rfl), six, ← List.append_assoc,
        value_append_zeros, value_append_zeros, value_zeroPadded]
      omega
    · split
      · next micros =>
        have fits : (numeral (nanos / 1000)).length ≤ 6 :=
          (Nat.length_toDigits_le_iff (by decide) (by decide)).mpr (by omega)
        rw [nineDigits_point fits (show 6 + 3 = 9 from rfl), value_append_zeros,
          value_zeroPadded]
        omega
      · have fits : (numeral nanos).length ≤ 9 :=
          (Nat.length_toDigits_le_iff (by decide) (by decide)).mpr lt
        rw [nineDigits_point fits (show 9 + 0 = 9 from rfl), List.replicate_zero, List.append_nil,
          value_zeroPadded]

/-- What stands behind the seconds begins with a point or a plus. -/
theorem stop_fractionText (nanos : Nat) :
    ∀ c ∈ ((fractionText nanos).toList ++ "+00:00".toList).head?, c.isDigit = false := by
  unfold fractionText
  split
  · simp
  · split
    · simp
    · split <;> simp

/-- The second of a minute, where a leap second is one more than the second before it. -/
def secondOf (i : Instant) : Nat :=
  (i.secs % 86400).toNat % 60 + if 1000000000 ≤ i.nanos then 1 else 0

/-- The parts of a timestamp, with the signs between them. -/
theorem toList_text (i : Instant) :
    let date := Date.ofDays (i.secs / 86400)
    let ofDay := (i.secs % 86400).toNat
    let two (n : Nat) : List Char := padLeft 2 '0' (numeral n)
    (text i).toList =
      (yearText date.year).toList ++ '-' :: (two date.month ++ '-' :: (two date.day ++
        'T' :: (two (ofDay / 3600) ++ ':' :: (two (ofDay / 60 % 60) ++
          ':' :: (two (secondOf i) ++
            ((fractionText (i.nanos % 1000000000)).toList ++ "+00:00".toList)))))) := by
  simp [text, secondOf]

/-- Instants of the same day, hour, minute, second and fraction are the same. -/
theorem eq_of_parts {i i' : Instant} (days : i.secs / 86400 = i'.secs / 86400)
    (hour : (i.secs % 86400).toNat / 3600 = (i'.secs % 86400).toNat / 3600)
    (minute : (i.secs % 86400).toNat / 60 % 60 = (i'.secs % 86400).toNat / 60 % 60)
    (second : secondOf i = secondOf i')
    (fraction : i.nanos % 1000000000 = i'.nanos % 1000000000) : i = i' := by
  -- a second 60 is a leap second, for there is none but at the end of a minute
  have leap (i : Instant) : secondOf i = 60 ↔ 1000000000 ≤ i.nanos := by
    have grid := i.onUtcGrid
    unfold Instant.OnUtcGrid at grid
    unfold secondOf
    split <;> omega
  have nanos : i.nanos = i'.nanos := by
    have same := leap i
    have same' := leap i'
    have lt := i.nanos_lt
    have lt' := i'.nanos_lt
    omega
  have secs : i.secs = i'.secs := by
    unfold secondOf at second
    rw [nanos] at second
    omega
  cases i
  cases i'
  cases secs
  cases nanos
  rfl

/-- A timestamp tells the instant. -/
theorem text_inj {i i' : Instant} : text i = text i' ↔ i = i' := by
  refine ⟨fun h => ?_, congrArg text⟩
  have chars := congrArg String.toList h
  have stop {sign : Char} (is_sign : sign.isDigit = false) (back : List Char) :
      ∀ c ∈ (sign :: back).head?, c.isDigit = false := by simpa using is_sign
  rw [toList_text, toList_text] at chars
  obtain ⟨year, chars⟩ := yearText_append_inj (stop rfl _) (stop rfl _) chars
  obtain ⟨month, chars⟩ :=
    zeroPadded_append_inj (stop rfl _) (stop rfl _) (List.cons.inj chars).2
  obtain ⟨day, chars⟩ := zeroPadded_append_inj (stop rfl _) (stop rfl _) (List.cons.inj chars).2
  obtain ⟨hour, chars⟩ := zeroPadded_append_inj (stop rfl _) (stop rfl _) (List.cons.inj chars).2
  obtain ⟨minute, chars⟩ :=
    zeroPadded_append_inj (stop rfl _) (stop rfl _) (List.cons.inj chars).2
  obtain ⟨second, chars⟩ := zeroPadded_append_inj (stop_fractionText _) (stop_fractionText _)
    (List.cons.inj chars).2
  have fraction := congrArg (fun text => value (nineDigits text)) (List.append_cancel_right chars)
  simp only [value_nineDigits (Nat.mod_lt _ (by decide : 0 < 1000000000))] at fraction
  have dates : Date.ofDays (i.secs / 86400) = Date.ofDays (i'.secs / 86400) := by
    cases date : Date.ofDays (i.secs / 86400)
    cases date' : Date.ofDays (i'.secs / 86400)
    simp only [date, date'] at year month day
    rw [year, month, day]
  have days : i.secs / 86400 = i'.secs / 86400 := by
    rw [← Date.toDays_ofDays (i.secs / 86400), dates, Date.toDays_ofDays]
  exact eq_of_parts days hour minute second fraction

/-- A timestamp is one word. -/
theorem blank_not_mem_text (i : Instant) : ' ' ∉ (text i).toList := by
  have digits (w n : Nat) : ' ' ∉ padLeft w '0' (numeral n) := fun mem => by
    cases isDigit_of_mem_zeroPadded mem
  have year (y : Int) : ' ' ∉ (yearText y).toList := by
    rw [toList_yearText]
    split
    · exact digits 4 _
    · rw [List.mem_cons, not_or]
      exact ⟨by split <;> decide, digits 4 _⟩
  have fraction (nanos : Nat) : ' ' ∉ (fractionText nanos).toList := by
    unfold fractionText
    split
    · simp
    · split
      · simp [digits]
      · split <;> simp [digits]
  rw [toList_text]
  simp [digits, year, fraction]

end Rfc3339

end DurableLog
