import Xqdb.Numbers

/-! The parts of `chrono` that `K` holds and the codec calls. Each type keeps
the range its constructor enforces; a second from 10^9 nanoseconds on is a leap
second. -/

namespace Xqdb

/-- `DateTime<Utc>`: whole seconds since 1970 and the nanoseconds within. -/
structure DateTime where
  timestamp : Int
  subsec : Nat
  subsec_lt : subsec < 2000000000
  deriving DecidableEq, Repr

namespace DateTime

def isLeap (t : DateTime) : Prop := 1000000000 ≤ t.subsec

instance (t : DateTime) : Decidable t.isLeap := inferInstanceAs (Decidable (_ ≤ _))

/-- `timestamp_nanos_opt`. A negative second is borrowed from first, so that the
product cannot leave the range when the sum is in it. -/
def timestampNanosOpt (t : DateTime) : Option Int64 :=
  let (seconds, nanos) :=
    if t.timestamp < 0 then (t.timestamp + 1, (t.subsec : Int) - 1000000000)
    else (t.timestamp, (t.subsec : Int))
  (checkedI64 (seconds * 1000000000)).bind fun product => checkedI64 (product.toInt + nanos)

/-- `DateTime::from_timestamp_nanos`. -/
def fromTimestampNanos (nanos : Int64) : DateTime where
  timestamp := nanos.toInt / 1000000000
  subsec := (nanos.toInt % 1000000000).toNat
  subsec_lt := by omega

theorem ext_fields {s t : DateTime} (h₁ : s.timestamp = t.timestamp) (h₂ : s.subsec = t.subsec) :
    s = t := by
  cases s
  cases t
  cases h₁
  cases h₂
  rfl

theorem timestampNanosOpt_eq_some {t : DateTime} {nanos : Int64}
    (h : t.timestampNanosOpt = some nanos) :
    nanos.toInt = t.timestamp * 1000000000 + t.subsec := by
  unfold timestampNanosOpt at h
  split at h
  next seconds subnanos heq =>
  obtain ⟨product, hproduct, hsum⟩ := Option.bind_eq_some_iff.mp h
  rw [checkedI64_eq_some] at hproduct hsum
  split at heq
  · cases heq
    omega
  · cases heq
    omega

/-- Without leap seconds the nanosecond count names the instant. -/
theorem fromTimestampNanos_timestampNanosOpt {t : DateTime} {nanos : Int64} (hleap : ¬ t.isLeap)
    (h : t.timestampNanosOpt = some nanos) : fromTimestampNanos nanos = t := by
  have hnanos := timestampNanosOpt_eq_some h
  have hsub : t.subsec < 1000000000 := by simpa [isLeap] using hleap
  apply ext_fields
  · simp only [fromTimestampNanos]
    omega
  · simp only [fromTimestampNanos]
    omega

end DateTime

/-- `NaiveDate`, by its day number from the first day of year 1. -/
structure NaiveDate where
  days : Int
  lower : -95746129 ≤ days
  upper : days ≤ 95745399
  deriving DecidableEq, Repr

namespace NaiveDate

def numDaysFromCe (d : NaiveDate) : Int32 := Int32.ofInt d.days

def fromNumDaysFromCeOpt (days : Int32) : Option NaiveDate :=
  if h : -95746129 ≤ days.toInt ∧ days.toInt ≤ 95745399 then some ⟨days.toInt, h.1, h.2⟩ else none

theorem numDaysFromCe_toInt (d : NaiveDate) : d.numDaysFromCe.toInt = d.days := by
  have h₁ := d.lower
  have h₂ := d.upper
  exact Int32.toInt_ofInt_of_le (by omega) (by omega)

theorem fromNumDaysFromCeOpt_numDaysFromCe (d : NaiveDate) :
    fromNumDaysFromCeOpt d.numDaysFromCe = some d := by
  simp [fromNumDaysFromCeOpt, numDaysFromCe_toInt, d.lower, d.upper]

/-- Days before each month of a common year. -/
def daysBeforeMonth : List Int := [0, 31, 59, 90, 120, 151, 181, 212, 243, 273, 304, 334]

/-- `NaiveDate::from_ymd_opt(year, month, 1)`. -/
def firstOfMonth (year : Int) (month : Nat) : Option NaiveDate :=
  let before := year - 1
  let leap := year % 4 = 0 ∧ (year % 100 ≠ 0 ∨ year % 400 = 0)
  let days := 365 * before + before / 4 - before / 100 + before / 400 +
    daysBeforeMonth.getD (month - 1) 0 + (if leap ∧ 2 < month then 1 else 0) + 1
  if h : -95746129 ≤ days ∧ days ≤ 95745399 then some ⟨days, h.1, h.2⟩ else none

example : (firstOfMonth 2000 1).map (·.days) = some 730120 := by decide

end NaiveDate

/-- `NaiveTime`. -/
structure NaiveTime where
  secs : Nat
  frac : Nat
  secs_lt : secs < 86400
  frac_lt : frac < 2000000000
  deriving DecidableEq, Repr

namespace NaiveTime

def isLeap (t : NaiveTime) : Prop := 1000000000 ≤ t.frac

instance (t : NaiveTime) : Decidable t.isLeap := inferInstanceAs (Decidable (_ ≤ _))

/-- `from_num_seconds_from_midnight_opt`: a leap second only ends a minute. -/
def fromNumSecondsFromMidnightOpt (secs nano : Nat) : Option NaiveTime :=
  if h : secs < 86400 ∧ nano < 2000000000 ∧ (nano < 1000000000 ∨ secs % 60 = 59) then
    some ⟨secs, nano, h.1, h.2.1⟩
  else none

/-- `num_seconds_from_midnight() * 1000 + nanosecond() / 1000000`. -/
def milliseconds (t : NaiveTime) : Nat := t.secs * 1000 + t.frac / 1000000

theorem milliseconds_lt (t : NaiveTime) : t.milliseconds < 86401000 := by
  have h₁ := t.secs_lt
  have h₂ := t.frac_lt
  unfold milliseconds
  omega

theorem fromNumSecondsFromMidnightOpt_parts {t : NaiveTime} (hleap : ¬ t.isLeap) :
    fromNumSecondsFromMidnightOpt t.secs t.frac = some t := by
  have hfrac : t.frac < 1000000000 := by simpa [isLeap] using hleap
  simp [fromNumSecondsFromMidnightOpt, t.secs_lt, t.frac_lt, hfrac]

end NaiveTime

/-- `chrono::Duration`, in nanoseconds. Its own range is far wider than `i64`. -/
structure Duration where
  nanoseconds : Int
  deriving DecidableEq, Repr

namespace Duration

def numNanoseconds (d : Duration) : Option Int64 := checkedI64 d.nanoseconds

def ofNanoseconds (nanos : Int64) : Duration := ⟨nanos.toInt⟩

theorem ofNanoseconds_numNanoseconds {d : Duration} {nanos : Int64}
    (h : d.numNanoseconds = some nanos) : ofNanoseconds nanos = d := by
  rw [numNanoseconds, checkedI64_eq_some] at h
  cases d
  simp_all [ofNanoseconds]

end Duration
end Xqdb
