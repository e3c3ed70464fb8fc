import Mathlib.Tactic.Ring
import Mathlib.Tactic.Positivity
import Fabriq.Lib.Gregorian

/-!
The text of a `TIMESTAMPTZ` column, as Postgres writes it in the time zone of the session, and its
reading by `time.Parse`.
-/

namespace Fabriq.Exec.PgTime

open Lib.Gregorian List Option

/-- The offset of the session's time zone from UTC, in minutes. -/
structure Zone where
  minutes : Int
  bound : minutes.natAbs < 1440

def digit (n : Nat) : Char :=
  Char.ofNat (48 + n % 10)

def pad : Nat → Nat → List Char
  | 0, _ => []
  | width + 1, n => pad width (n / 10) ++ [digit n]

/-- The digits of a fraction of `width` places, without the zeros at its end. -/
def trimmed : Nat → Nat → List Char
  | 0, _ => []
  | width + 1, n =>
    if n = 0 then [] else digit (n / 10 ^ width) :: trimmed width (n % 10 ^ width)

def fractionText (micros : Nat) : List Char :=
  if micros = 0 then [] else '.' :: trimmed 6 micros

def zoneText (zone : Zone) : List Char :=
  (if zone.minutes < 0 then '-' else '+') :: pad 2 (zone.minutes.natAbs / 60) ++
    if zone.minutes.natAbs % 60 = 0 then [] else ':' :: pad 2 (zone.minutes.natAbs % 60)

def yearText (year : Nat) : List Char :=
  if year < 10000 then pad 4 year else Nat.toDigits 10 year

/-- The seconds of a time on the clock of the zone. -/
def localSeconds (zone : Zone) (micros : Int) : Int :=
  micros / 1000000 + zone.minutes * 60

def localDate (zone : Zone) (micros : Int) : Date :=
  date (localSeconds zone micros / 86400)

/-- `at::text`: years before the first are counted back, with `BC` at the end. -/
def text (zone : Zone) (micros : Int) : List Char :=
  let d := localDate zone micros
  let second := (localSeconds zone micros % 86400).toNat
  let year := if 0 < d.year then d.year.toNat else (1 - d.year).toNat
  yearText year ++ '-' :: pad 2 d.month ++ '-' :: pad 2 d.day ++
    ' ' :: pad 2 (second / 3600) ++ ':' :: pad 2 (second / 60 % 60) ++ ':' :: pad 2 (second % 60) ++
    fractionText (micros % 1000000).toNat ++ zoneText zone ++
    if 0 < d.year then [] else [' ', 'B', 'C']

/-- The elements of the layouts below. -/
inductive Chunk
  | year
  | zeroMonth
  | zeroDay
  | hour
  | zeroMinute
  | zeroSecond
  | fracSecond
  | numShortTZ
  | numColonTZ
  | isoColonTZ
  | literal (c : Char)

structure Fields where
  year : Nat := 0
  month : Nat := 1
  day : Nat := 1
  hour : Nat := 0
  minute : Nat := 0
  second : Nat := 0
  nanos : Nat := 0
  zone : Int := 0

def digitValue (c : Char) : Nat :=
  c.toNat - 48

def getnum (fixed : Bool) : List Char → Option (Nat × List Char)
  | a :: b :: rest =>
    if !a.isDigit then none
    else if b.isDigit then some (digitValue a * 10 + digitValue b, rest)
    else if fixed then none else some (digitValue a, b :: rest)
  | [a] => if a.isDigit && !fixed then some (digitValue a, []) else none
  | [] => none

/-- Up to `places` digits of a fraction, as units of the last place. -/
def fractionDigits : Nat → List Char → Nat × List Char
  | 0, cs => (0, cs)
  | _ + 1, [] => (0, [])
  | places + 1, c :: cs =>
    if c.isDigit then
      let (low, rest) := fractionDigits places cs
      (digitValue c * 10 ^ places + low, rest)
    else (0, c :: cs)

/-- A fraction of a second, in nanoseconds, if there is one. -/
def fraction : List Char → Nat × List Char
  | point :: c :: cs =>
    if (point == '.' || point == ',') && c.isDigit then fractionDigits 9 (c :: cs)
    else (0, point :: c :: cs)
  | cs => (0, cs)

def sign : Char → Option Int
  | '+' => some 1
  | '-' => some (-1)
  | _ => none

/-- The hours of a zone, and its minutes after a colon. -/
def zoneOffset (colon : Bool) : List Char → Option (Int × List Char)
  | [] => none
  | c :: cs => do
    let s ← sign c
    let (hours, rest) ← getnum true cs
    if colon then
      match rest with
      | ':' :: rest => do
        let (minutes, rest) ← getnum true rest
        if hours ≤ 24 ∧ minutes ≤ 60 then some (s * (hours * 60 + minutes : Nat), rest) else none
      | _ => none
    else if hours ≤ 24 then some (s * (hours * 60 : Nat), rest) else none

def readYear (cs : List Char) : Option (Nat × List Char) := do
  let (high, rest) ← getnum true cs
  let (low, rest) ← getnum true rest
  return (high * 100 + low, rest)

/-- One element of a layout.  A fraction may follow the seconds without standing in the layout. -/
def readChunk (f : Fields) (cs : List Char) : Chunk → Option (Fields × List Char)
  | .year => (readYear cs).map fun r => ({ f with year := r.1 }, r.2)
  | .zeroMonth => (getnum true cs).map fun r => ({ f with month := r.1 }, r.2)
  | .zeroDay => (getnum true cs).map fun r => ({ f with day := r.1 }, r.2)
  | .hour => (getnum false cs).map fun r => ({ f with hour := r.1 }, r.2)
  | .zeroMinute => (getnum true cs).map fun r => ({ f with minute := r.1 }, r.2)
  | .zeroSecond => (getnum true cs).map fun r =>
      ({ f with second := r.1, nanos := (fraction r.2).1 }, (fraction r.2).2)
  | .fracSecond => some (f, cs)
  | .numShortTZ => (zoneOffset false cs).map fun r => ({ f with zone := r.1 }, r.2)
  | .numColonTZ => (zoneOffset true cs).map fun r => ({ f with zone := r.1 }, r.2)
  | .isoColonTZ =>
    match cs with
    | 'Z' :: rest => some (f, rest)
    | cs => (zoneOffset true cs).map fun r => ({ f with zone := r.1 }, r.2)
  | .literal c =>
    match cs with
    | x :: rest => if x = c then some (f, rest) else none
    | [] => none

def readChunks : Fields → List Char → List Chunk → Option (Fields × List Char)
  | f, cs, [] => some (f, cs)
  | f, cs, chunk :: rest => (readChunk f cs chunk).bind fun r => readChunks r.1 r.2 rest

def Fields.inRange (f : Fields) : Bool :=
  decide (1 ≤ f.month ∧ f.month ≤ 12 ∧ 1 ≤ f.day ∧ f.day ≤ daysIn f.year f.month ∧
    f.hour < 24 ∧ f.minute < 60 ∧ f.second < 60)

/-- The nanoseconds from 1970 that the fields stand for. -/
def Fields.instant (f : Fields) : Int :=
  (dayNumber ⟨f.year, f.month, f.day⟩ * 86400 + (f.hour * 3600 + f.minute * 60 + f.second : Nat) -
    f.zone * 60) * 1000000000 + f.nanos

/-- `time.Parse`, which takes no text after the layout. -/
def parse (layout : List Chunk) (cs : List Char) : Option Int :=
  match readChunks {} cs layout with
  | some (f, []) => if f.inRange then some f.instant else none
  | _ => none

def dateTime (separator : Char) : List Chunk :=
  [.year, .literal '-', .zeroMonth, .literal '-', .zeroDay, .literal separator, .hour,
    .literal ':', .zeroMinute, .literal ':', .zeroSecond]

/-- The layouts of `parsePGTime`, the last of them `time.RFC3339Nano`. -/
def layouts : List (List Chunk) :=
  [dateTime ' ' ++ [.fracSecond, .numShortTZ], dateTime ' ' ++ [.fracSecond, .numColonTZ],
    dateTime ' ' ++ [.numShortTZ], dateTime 'T' ++ [.fracSecond, .isoColonTZ]]

def parsePGTime (cs : List Char) : Option Int :=
  layouts.findSome? fun layout => parse layout cs

@[simp] theorem isDigit_digit (n : Nat) : (digit n).isDigit = true := by
  have hall : ∀ d < 10, (Char.ofNat (48 + d)).isDigit = true := by decide
  exact hall (n % 10) (Nat.mod_lt n (by decide))

@[simp] theorem digitValue_digit (n : Nat) : digitValue (digit n) = n % 10 := by
  have hall : ∀ d < 10, digitValue (Char.ofNat (48 + d)) = d := by decide
  exact hall (n % 10) (Nat.mod_lt n (by decide))

theorem getnum_pad {n : Nat} (h : n < 100) (fixed : Bool) (rest : List Char) :
    getnum fixed (pad 2 n ++ rest) = some (n, rest) := by
  change getnum fixed (digit (n / 10) :: digit n :: rest) = _
  have hvalue : n / 10 % 10 * 10 + n % 10 = n := by omega
  simp only [getnum, isDigit_digit, digitValue_digit, hvalue, Bool.not_true, Bool.false_eq_true,
    if_false, if_true]

theorem readYear_pad {n : Nat} (h : n < 10000) (rest : List Char) :
    readYear (pad 4 n ++ rest) = some (n, rest) := by
  have hsplit : pad 4 n ++ rest = pad 2 (n / 100) ++ (pad 2 (n % 100) ++ rest) := by
    have hmid : n / 10 / 10 = n / 100 := by omega
    have hten : digit (n / 10) = digit (n % 100 / 10) := by
      rw [digit, digit, show n / 10 % 10 = n % 100 / 10 % 10 by omega]
    have hone : digit n = digit (n % 100) := by
      rw [digit, digit, show n % 10 = n % 100 % 10 by omega]
    simp only [pad, hmid, hten, hone, nil_append, cons_append]
  have hvalue : n / 100 * 100 + n % 100 = n := by omega
  rw [readYear, hsplit, getnum_pad (by omega)]
  simp only [bind_eq_bind, bind_some, getnum_pad (Nat.mod_lt n (by decide)), hvalue]
  rfl

/-- What follows the fraction is no digit. -/
def EndsDigits (rest : List Char) : Prop :=
  ∀ c ∈ rest.head?, c.isDigit = false

theorem fractionDigits_nil {rest : List Char} (h : EndsDigits rest) (places : Nat) :
    fractionDigits places rest = (0, rest) := by
  cases places with
  | zero => rfl
  | succ places =>
    cases rest with
    | nil => rfl
    | cons c cs =>
      have hc : c.isDigit = false := h c rfl
      simp [fractionDigits, hc]

theorem fractionDigits_trimmed {rest : List Char} (h : EndsDigits rest) (more : Nat) :
    ∀ {width n : Nat}, n < 10 ^ width →
      fractionDigits (width + more) (trimmed width n ++ rest) = (n * 10 ^ more, rest) := by
  intro width
  induction width with
  | zero =>
    intro n hn
    obtain rfl : n = 0 := by simpa using hn
    simp [trimmed, fractionDigits_nil h]
  | succ width ih =>
    intro n hn
    by_cases hzero : n = 0
    · simp [trimmed, hzero, fractionDigits_nil h]
    · have hlow : n % 10 ^ width < 10 ^ width := Nat.mod_lt n (by positivity)
      have hhigh : n / 10 ^ width < 10 := by
        rw [Nat.div_lt_iff_lt_mul (by positivity), mul_comm, ← pow_succ]
        exact hn
      rw [trimmed, if_neg hzero, Nat.add_right_comm, cons_append, fractionDigits,
        isDigit_digit, if_pos rfl, ih hlow, digitValue_digit, Nat.mod_eq_of_lt hhigh, pow_add]
      refine Prod.ext ?_ rfl
      calc n / 10 ^ width * (10 ^ width * 10 ^ more) + n % 10 ^ width * 10 ^ more
          = (10 ^ width * (n / 10 ^ width) + n % 10 ^ width) * 10 ^ more := by ring
        _ = n * 10 ^ more := by rw [Nat.div_add_mod]

theorem fraction_fractionText {micros : Nat} (h : micros < 10 ^ 6) {c : Char} {rest : List Char}
    (hc : c = '+' ∨ c = '-') :
    fraction (fractionText micros ++ c :: rest) = (micros * 1000, c :: rest) := by
  have hends : EndsDigits (c :: rest) := by
    intro x hx
    cases hx
    rcases hc with rfl | rfl <;> rfl
  unfold fractionText
  split_ifs with hzero
  · rw [hzero, nil_append, zero_mul]
    cases rest with
    | nil => rfl
    | cons x rest => rcases hc with rfl | rfl <;> rfl
  · have hread := fractionDigits_trimmed hends 3 h
    rw [trimmed, if_neg hzero] at hread ⊢
    simpa [fraction] using hread

variable (zone : Zone)

theorem zoneOffset_short (h : zone.minutes.natAbs % 60 = 0) :
    zoneOffset false (zoneText zone) = some (zone.minutes, []) := by
  have hbound := zone.bound
  have hhours : zone.minutes.natAbs / 60 < 100 := by omega
  have hmost : zone.minutes.natAbs / 60 ≤ 24 := by omega
  unfold zoneText
  rw [if_pos h, append_nil]
  have hread := getnum_pad hhours true []
  rw [append_nil] at hread
  split_ifs
  all_goals
    simp only [zoneOffset, sign, hread, bind_eq_bind, bind_some, Bool.false_eq_true, if_false,
      if_pos hmost, some.injEq, Prod.mk.injEq, and_true]
    omega

theorem zoneOffset_colon (h : zone.minutes.natAbs % 60 ≠ 0) :
    zoneOffset true (zoneText zone) = some (zone.minutes, []) ∧
      ∃ hours rest, zoneOffset false (zoneText zone) = some (hours, ':' :: rest) := by
  have hbound := zone.bound
  have hhours : zone.minutes.natAbs / 60 < 100 := by omega
  have hmost : zone.minutes.natAbs / 60 ≤ 24 ∧ zone.minutes.natAbs % 60 ≤ 60 := by omega
  have hminutes : zone.minutes.natAbs % 60 < 100 := by omega
  unfold zoneText
  rw [if_neg h]
  have hread := getnum_pad hminutes true []
  rw [append_nil] at hread
  split_ifs
  all_goals
    simp only [cons_append, zoneOffset, sign, getnum_pad hhours, hread, bind_eq_bind, bind_some,
      if_true, if_pos hmost, if_pos hmost.1, some.injEq, Prod.mk.injEq, and_true,
      Bool.false_eq_true, if_false]
    exact ⟨by omega, _, _, rfl, rfl⟩

/-- The fields that the text of a time shows, without its zone. -/
def shownFields (micros : Int) : Fields :=
  let d := localDate zone micros
  let second := (localSeconds zone micros % 86400).toNat
  { year := d.year.toNat
    month := d.month
    day := d.day
    hour := second / 3600
    minute := second / 60 % 60
    second := second % 60
    nanos := (micros % 1000000).toNat * 1000 }

variable {zone} {micros : Int}

theorem readChunks_text (hyear : 1 ≤ (localDate zone micros).year)
    (hmost : (localDate zone micros).year ≤ 9999) (chunks : List Chunk) :
    readChunks {} (text zone micros) (dateTime ' ' ++ chunks) =
      readChunks (shownFields zone micros) (zoneText zone) chunks := by
  obtain ⟨-, hmonth, -, hday⟩ := date_bounds (localSeconds zone micros / 86400)
  have hday := hday.trans (daysIn_le _ _)
  change (localDate zone micros).month ≤ 12 at hmonth
  change (localDate zone micros).day ≤ 31 at hday
  have hmicros : (micros % 1000000).toNat < 10 ^ 6 := by omega
  have hzone : ∃ c rest, zoneText zone = c :: rest ∧ (c = '+' ∨ c = '-') := by
    unfold zoneText
    split_ifs
    all_goals exact ⟨_, _, rfl, by simp⟩
  obtain ⟨c, rest, hzone, hc⟩ := hzone
  have hpos : 0 < (localDate zone micros).year := by omega
  have hshort : (localDate zone micros).year.toNat < 10000 := by omega
  have hhour : (localSeconds zone micros % 86400).toNat / 3600 < 100 := by omega
  have hminute : (localSeconds zone micros % 86400).toNat / 60 % 60 < 100 := by omega
  have hsecond : (localSeconds zone micros % 86400).toNat % 60 < 100 := by omega
  simp only [text, if_pos hpos, yearText, if_pos hshort, hzone, append_nil, append_assoc,
    cons_append, dateTime, nil_append, readChunks, readChunk, readYear_pad hshort, map_some,
    bind_some, if_true, getnum_pad (Nat.lt_of_le_of_lt hmonth (by decide)),
    getnum_pad (Nat.lt_of_le_of_lt hday (by decide)), getnum_pad hhour, getnum_pad hminute,
    getnum_pad hsecond, fraction_fractionText hmicros hc]
  rfl

theorem year_shown (hyear : 1 ≤ (localDate zone micros).year) :
    ((shownFields zone micros).year : Int) = (localDate zone micros).year :=
  Int.toNat_of_nonneg (by omega)

theorem inRange_shown (hyear : 1 ≤ (localDate zone micros).year) (minutes : Int) :
    { shownFields zone micros with zone := minutes }.inRange = true := by
  obtain ⟨hmonth, hlast, hday, hend⟩ := date_bounds (localSeconds zone micros / 86400)
  simp only [Fields.inRange, year_shown hyear, decide_eq_true_eq]
  simp only [shownFields]
  exact ⟨hmonth, hlast, hday, hend, by omega, by omega, by omega⟩

theorem instant_shown (hyear : 1 ≤ (localDate zone micros).year) :
    { shownFields zone micros with zone := zone.minutes }.instant = micros * 1000 := by
  have hdays : dayNumber (localDate zone micros) = localSeconds zone micros / 86400 :=
    dayNumber_date _
  simp only [Fields.instant, year_shown hyear]
  simp only [shownFields]
  change (dayNumber (localDate zone micros) * 86400 + _ - _) * _ + _ = _
  rw [hdays]
  unfold localSeconds
  omega

/-- The text of a time is read back as that time, if Postgres writes its year with four digits. -/
theorem parsePGTime_text (hyear : 1 ≤ (localDate zone micros).year)
    (hmost : (localDate zone micros).year ≤ 9999) :
    parsePGTime (text zone micros) = some (micros * 1000) := by
  have hread := readChunks_text hyear hmost
  have hdone : (if { shownFields zone micros with zone := zone.minutes }.inRange then
      some { shownFields zone micros with zone := zone.minutes }.instant else none) =
        some (micros * 1000) := by
    rw [if_pos (inRange_shown hyear _), instant_shown hyear]
  by_cases hwhole : zone.minutes.natAbs % 60 = 0
  · have hfirst : parse (dateTime ' ' ++ [.fracSecond, .numShortTZ]) (text zone micros) =
        some (micros * 1000) := by
      rw [parse, hread]
      simp only [readChunks, readChunk, bind_some, zoneOffset_short zone hwhole, map_some]
      exact hdone
    rw [parsePGTime, layouts, findSome?_cons, hfirst]
  · -- the minutes of the zone are left over by the first layout
    obtain ⟨hcolon, hours, rest, hshort⟩ := zoneOffset_colon zone hwhole
    have hfirst : parse (dateTime ' ' ++ [.fracSecond, .numShortTZ]) (text zone micros) = none := by
      rw [parse, hread]
      simp only [readChunks, readChunk, bind_some, hshort, map_some]
    have hsecond : parse (dateTime ' ' ++ [.fracSecond, .numColonTZ]) (text zone micros) =
        some (micros * 1000) := by
      rw [parse, hread]
      simp only [readChunks, readChunk, bind_some, hcolon, map_some]
      exact hdone
    rw [parsePGTime, layouts, findSome?_cons, hfirst]
    simp only [findSome?_cons, hsecond]

end Fabriq.Exec.PgTime
