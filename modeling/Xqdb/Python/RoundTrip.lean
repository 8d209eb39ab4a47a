import Xqdb.Lib.Outcome
import Xqdb.Python.Cast

/-! Values of q that go to Python and come back. Python has one integer type, one float type and one
kind of text, and its clock ends at microseconds. -/

namespace Xqdb.Python

open Outcome (bind_eq_ok map_eq_ok)

/-! ## Times and dates -/

theorem pythonDateParts_of_bounds {days : Int} (hlow : 1 ≤ days) (hhigh : days ≤ 3652059) :
    ∃ date, pythonDateParts days = .ok date ∧ date.date.number = days := by
  obtain ⟨hvalid, hnumber⟩ := Calendar.number_ofNumber days
  obtain ⟨hafter, hbefore⟩ := Calendar.number_bounds hvalid
  have hone : Calendar.daysBeforeYear 1 = 0 := by decide
  have hmost : Calendar.daysBeforeYear 10000 = 3652059 := by decide
  have hyears : 1 ≤ (Calendar.ofNumber days).year ∧ (Calendar.ofNumber days).year ≤ 9999 := by
    constructor
    · by_contra hyear
      have := Calendar.daysBeforeYear_mono (show (Calendar.ofNumber days).year + 1 ≤ 1 by omega)
      omega
    · by_contra hyear
      have := Calendar.daysBeforeYear_mono (show 10000 ≤ (Calendar.ofNumber days).year by omega)
      omega
  exact ⟨⟨_, hvalid, hyears⟩, dif_pos hyears, hnumber⟩

theorem pythonDateParts_ok {days : Int} {date : Date} (h : pythonDateParts days = .ok date) :
    date.date.number = days := by
  unfold pythonDateParts at h
  split at h
  · obtain rfl := Except.ok.inj h
    exact (Calendar.number_ofNumber days).2
  · cases h

theorem pythonDateParts_number (date : Date) : pythonDateParts date.date.number = .ok date := by
  have hsame := Calendar.ofNumber_number date.valid
  unfold pythonDateParts
  rw [dif_pos (by rw [hsame]; exact date.years)]
  obtain ⟨found, hvalid, hyears⟩ := date
  simp only [Except.ok.injEq, Date.mk.injEq]
  exact hsame

theorem Date.naive_eq {date : Date} {value : NaiveDate} (h : date.date.number = value.days) : date.naive = value := by
  obtain ⟨days, hlower, hupper⟩ := value
  simp only [Date.naive, NaiveDate.mk.injEq]
  exact h

theorem pythonTime_eq_ok {seconds microsecond : Nat} {time : Time} (hday : seconds < 86400) :
    pythonTime seconds microsecond = .ok time ↔ time.seconds = seconds ∧ time.microsecond = microsecond := by
  unfold pythonTime
  by_cases hmicro : microsecond < 1000000
  · rw [dif_pos ⟨by omega, by omega, by omega, hmicro⟩]
    obtain ⟨hour, minute, second, micro, hbounds⟩ := time
    simp only [Except.ok.injEq, Time.mk.injEq, Time.seconds]
    omega
  · rw [dif_neg (by omega)]
    have hbounds := time.bounds
    constructor
    · intro h
      cases h
    · rintro ⟨-, hsame⟩
      omega

theorem pythonMicroseconds_eq_ok {nanoseconds microseconds : Nat} {typeName : String} :
    pythonMicroseconds nanoseconds typeName = .ok microseconds ↔ nanoseconds = microseconds * 1000 := by
  unfold pythonMicroseconds
  by_cases hrest : nanoseconds % 1000 ≠ 0
  · rw [if_pos hrest]
    constructor
    · intro h
      cases h
    · omega
  · rw [if_neg hrest, Except.ok.injEq]
    omega

/-- What a time comes to in Python. -/
theorem castKTime_eq_ok {value : NaiveTime} {leaf : Leaf} :
    castKTime value = .ok leaf ↔ ∃ time, leaf = .time time ∧ time.naive = value := by
  obtain ⟨secs, frac, hsecs, hfrac⟩ := value
  simp only [castKTime, bind_eq_ok, pythonMicroseconds_eq_ok, pythonTime_eq_ok hsecs, Except.ok.injEq]
  constructor
  · rintro ⟨microsecond, rfl, time, ⟨hseconds, rfl⟩, rfl⟩
    refine ⟨time, rfl, ?_⟩
    simp only [Time.naive, NaiveTime.mk.injEq, and_true]
    exact hseconds
  · rintro ⟨time, rfl, hnaive⟩
    simp only [Time.naive, NaiveTime.mk.injEq] at hnaive
    exact ⟨time.microsecond, hnaive.2.symm, time, ⟨hnaive.1, rfl⟩, rfl⟩

/-- A naive `datetime` without further digits. -/
def DateTime.Settled (value : DateTime) : Prop := value.zone = .naive ∧ value.nanosecond = none

/-- The parts of a timestamp. -/
structure DateTime.Tells (found : DateTime) (value : Xqdb.DateTime) : Prop where
  settled : found.Settled
  day : found.date.date.number = value.timestamp / 86400 + epochDay
  seconds : found.time.seconds = (value.timestamp % 86400).toNat
  microsecond : value.subsec = found.time.microsecond * 1000

theorem castKDateTime_eq_ok {value : Xqdb.DateTime} {leaf : Leaf} :
    castKDateTime value = .ok leaf ↔ ∃ found : DateTime, leaf = .datetime found ∧ found.Tells value := by
  have hday : (value.timestamp % 86400).toNat < 86400 := by omega
  simp only [castKDateTime, bind_eq_ok, pythonMicroseconds_eq_ok, pythonTime_eq_ok hday, Except.ok.injEq]
  constructor
  · rintro ⟨date, hdate, microsecond, hmicro, time, ⟨hseconds, rfl⟩, rfl⟩
    exact ⟨_, rfl, ⟨rfl, rfl⟩, pythonDateParts_ok hdate, hseconds, hmicro⟩
  · rintro ⟨⟨date, time, zone, nanosecond⟩, rfl, ⟨rfl, rfl⟩, hdate, hseconds, hmicro⟩
    refine ⟨date, ?_, time.microsecond, hmicro, time, ⟨hseconds, rfl⟩, rfl⟩
    rw [← hdate, pythonDateParts_number]

/-- A timestamp that q can hold. -/
def InQRange (value : Xqdb.DateTime) : Prop :=
  ∃ nanoseconds, value.timestampNanosOpt = some nanoseconds ∧ Node.minQTimestampUnixNanos ≤ nanoseconds.toInt

/-- A `datetime` that tells a timestamp leads back to it. -/
theorem castDateTime_tells {found : DateTime} {value : Xqdb.DateTime} (h : found.Tells value) (k : K) :
    castDateTime found = .ok k ↔ InQRange value ∧ k = .DateTime value := by
  obtain ⟨⟨hzone, hnanosecond⟩, hday, hseconds, hmicro⟩ := h
  have hbounds := found.time.bounds
  have hsame : ofUnixNanoseconds (found.wall * 1000 + 0) = value := by
    apply DateTime.ext_fields
    · simp only [ofUnixNanoseconds, DateTime.wall, microsecondsPerSecond, epochDay] at hday ⊢
      omega
    · simp only [ofUnixNanoseconds, DateTime.wall, microsecondsPerSecond, epochDay] at hday ⊢
      omega
  rw [castDateTime, DateTime.instant, hzone, DateTime.remainder, hnanosecond]
  simp only [bind, Except.bind]
  rw [hsame, InQRange]
  cases value.timestampNanosOpt with
  | none => simp
  | some nanoseconds =>
    by_cases hearly : nanoseconds.toInt < Node.minQTimestampUnixNanos
    · simp [hearly]
    · simp [hearly, Int.not_lt.mp hearly, eq_comm]

theorem Delta.duration_inj {first second : Delta} (h : first.duration = second.duration) : first = second := by
  obtain ⟨days, seconds, microseconds, hbounds⟩ := first
  obtain ⟨days', seconds', microseconds', hbounds'⟩ := second
  simp only [Delta.duration, microsecondsPerSecond, Duration.mk.injEq] at h
  simp only [Delta.mk.injEq]
  omega

/-- The constructor of `timedelta` on parts that it takes as they are. -/
theorem pythonDelta_parts {days seconds microseconds : Int} (hseconds : 0 ≤ seconds ∧ seconds < 86400)
    (hmicros : 0 ≤ microseconds ∧ microseconds < 1000000) (hdays : -200000 ≤ days ∧ days ≤ 200000) :
    ∃ delta, pythonDelta days seconds microseconds = .ok delta ∧
      delta.duration = ⟨((days * 86400 + seconds) * 1000000 + microseconds) * 1000⟩ := by
  refine ⟨⟨days, seconds.toNat, microseconds.toNat, by omega⟩, dif_pos (by omega), ?_⟩
  simp only [Delta.duration, microsecondsPerSecond, Duration.mk.injEq]
  omega

theorem castKDuration_eq_ok {value : Duration} {leaf : Leaf} :
    castKDuration value = .ok leaf ↔
      value.numNanoseconds.isSome ∧ ∃ delta, leaf = .delta delta ∧ delta.duration = value := by
  unfold castKDuration
  cases hnanos : value.numNanoseconds with
  | none => simp
  | some nanoseconds =>
    have hvalue : value.nanoseconds = nanoseconds.toInt := (checkedI64_eq_some.mp hnanos).symm
    have hlow := nanoseconds.le_toInt
    have hhigh := nanoseconds.toInt_lt
    dsimp only
    by_cases hdigits : nanoseconds.toInt % 1000 ≠ 0
    · rw [if_pos hdigits]
      constructor
      · intro h
        cases h
      · rintro ⟨-, delta, -, hdelta⟩
        rw [← hdelta, Delta.duration] at hvalue
        dsimp only at hvalue
        omega
    · have hparts := @pythonDelta_parts (nanoseconds.toInt / 1000 / microsecondsPerDay)
        (nanoseconds.toInt / 1000 % microsecondsPerDay / microsecondsPerSecond)
        (nanoseconds.toInt / 1000 % microsecondsPerDay % microsecondsPerSecond)
        (by simp only [microsecondsPerDay, microsecondsPerSecond]; omega)
        (by simp only [microsecondsPerSecond]; omega)
        (by simp only [microsecondsPerDay, microsecondsPerSecond]; omega)
      obtain ⟨delta, hdelta, hduration⟩ := hparts
      have hsame : delta.duration = value := by
        obtain ⟨found⟩ := value
        rw [hduration, Duration.mk.injEq]
        simp only [microsecondsPerDay, microsecondsPerSecond] at hvalue ⊢
        omega
      rw [if_neg hdigits, if_pos (by simp only [microsecondsPerDay, microsecondsPerSecond]; omega), bind_eq_ok]
      constructor
      · rintro ⟨found, hfound, hleaf⟩
        obtain rfl := Except.ok.inj (hdelta.symm.trans hfound)
        exact ⟨rfl, delta, (Except.ok.inj hleaf).symm, hsame⟩
      · rintro ⟨-, found, rfl, hfound⟩
        obtain rfl := Delta.duration_inj (hsame.trans hfound.symm)
        exact ⟨delta, hdelta, rfl⟩

instance (value : Xqdb.DateTime) : Decidable (InQRange value) :=
  match h : value.timestampNanosOpt with
  | none => isFalse (by simp [InQRange, h])
  | some nanoseconds => decidable_of_iff (Node.minQTimestampUnixNanos ≤ nanoseconds.toInt) (by simp [InQRange, h])

/-- A timestamp of q in whole microseconds is a `datetime`. -/
theorem exists_tells {value : Xqdb.DateTime} (hrange : InQRange value) :
    (∃ found : DateTime, found.Tells value) ↔ value.subsec < 1000000000 ∧ value.subsec % 1000 = 0 := by
  constructor
  · rintro ⟨found, -, -, -, hmicro⟩
    have hbounds := found.time.bounds
    omega
  · rintro ⟨hleap, hdigits⟩
    obtain ⟨nanoseconds, hnanos, -⟩ := hrange
    have hsum := DateTime.timestampNanosOpt_eq_some hnanos
    have hlow := nanoseconds.le_toInt
    have hhigh := nanoseconds.toInt_lt
    obtain ⟨date, -, hdate⟩ := @pythonDateParts_of_bounds (value.timestamp / 86400 + epochDay)
      (by simp only [epochDay]; omega) (by simp only [epochDay]; omega)
    have hday : (value.timestamp % 86400).toNat < 86400 := by omega
    have htime : ∃ time, pythonTime (value.timestamp % 86400).toNat (value.subsec / 1000) = .ok time :=
      ⟨_, dif_pos (by omega)⟩
    obtain ⟨time, htime⟩ := htime
    obtain ⟨hseconds, hmicro⟩ := (pythonTime_eq_ok hday).mp htime
    exact ⟨⟨date, time, .naive, none⟩, ⟨rfl, rfl⟩, hdate, hseconds, by simp only; omega⟩

theorem exists_time {value : NaiveTime} :
    (∃ time : Time, time.naive = value) ↔ value.frac < 1000000000 ∧ value.frac % 1000 = 0 := by
  constructor
  · rintro ⟨time, rfl⟩
    have hbounds := time.bounds
    simp only [Time.naive]
    omega
  · rintro ⟨hleap, hdigits⟩
    have htime : ∃ time, pythonTime value.secs (value.frac / 1000) = .ok time :=
      ⟨_, dif_pos (by have := value.secs_lt; omega)⟩
    obtain ⟨time, htime⟩ := htime
    obtain ⟨hseconds, hmicro⟩ := (pythonTime_eq_ok value.secs_lt).mp htime
    refine ⟨time, ?_⟩
    obtain ⟨secs, frac, hsecs, hfrac⟩ := value
    simp only [Time.naive, NaiveTime.mk.injEq] at hdigits hmicro ⊢
    exact ⟨hseconds, by omega⟩

theorem exists_delta {value : Duration} (hfits : value.numNanoseconds.isSome) :
    (∃ delta : Delta, delta.duration = value) ↔ value.nanoseconds % 1000 = 0 := by
  constructor
  · rintro ⟨delta, rfl⟩
    simp only [Delta.duration]
    omega
  · intro hdigits
    obtain ⟨nanoseconds, hnanos⟩ := Option.isSome_iff_exists.mp hfits
    have hvalue : nanoseconds.toInt = value.nanoseconds := checkedI64_eq_some.mp hnanos
    have hlow := nanoseconds.le_toInt
    have hhigh := nanoseconds.toInt_lt
    refine ⟨⟨value.nanoseconds / 86400000000000, (value.nanoseconds / 1000000000 % 86400).toNat,
      (value.nanoseconds / 1000 % 1000000).toNat, by omega⟩, ?_⟩
    obtain ⟨found⟩ := value
    simp only [Delta.duration, microsecondsPerSecond, Duration.mk.injEq] at hdigits ⊢
    omega

/-! ## What comes back -/

section

variable (bridge : Bridge)

/-- What comes back of a value without members. -/
def leafBack : K → Option K
  | .Boolean value => some (.Boolean value)
  | .Guid value => some (.Symbol (guidText value))
  | .U8 value => some (.I64 (Int64.ofInt value.toNat))
  | .I16 value => some (.I64 (Int64.ofInt value.toInt))
  | .I32 value => some (.I64 (Int64.ofInt value.toInt))
  | .I64 value => some (.I64 value)
  | .F32 bits => some (.F64 (f32AsF64 bits))
  | .F64 bits => some (.F64 bits)
  | .Char value => some (.Symbol (Str.ofText [Char.ofNat value.toNat]))
  | .CharVector value => some (((Str.fromUtf8 value).map K.Symbol).getD (.CharVector value))
  | .Symbol value => some (.Symbol value)
  | .String value => some (.Symbol value)
  | .DateTime value =>
    if value.subsec < 1000000000 ∧ value.subsec % 1000 = 0 ∧ InQRange value then some (.DateTime value) else none
  | .Date value => if 1 ≤ value.days ∧ value.days ≤ 3652059 then some (.Date value) else none
  | .Time value => if value.frac < 1000000000 ∧ value.frac % 1000000 = 0 then some (.Time value) else none
  | .Duration value =>
    if value.numNanoseconds.isSome ∧ value.nanoseconds % 1000 = 0 then some (.Duration value) else none
  | .Series value => (bridge.series value).toOption.map ArrowValue.k
  | .DataFrame value => (bridge.frame value).toOption.map ArrowValue.k
  | .Operator value => some (.Operator value)
  | .Lambda value => some (.Lambda value)
  | .QValue value => some (.QValue value)
  | .Null => some .Null
  | .MixedList _ => none
  | .Dict _ => none

mutual

/-- What comes back of a value: integers are longs, floats are 64 bits wide, and whatever Python
has as a text is a symbol. -/
def comesBack (k : K) : Option K :=
  match k with
  | .MixedList values => (comeBack values).map .MixedList
  | .Dict entries => (entriesComeBack entries).map .Dict
  | k => leafBack bridge k

def comeBack (values : List K) : Option (List K) :=
  match values with
  | [] => some []
  | value :: rest => do
    let value ← comesBack value
    let rest ← comeBack rest
    some (value :: rest)

def entriesComeBack (entries : List (Str × K)) : Option (List (Str × K)) :=
  match entries with
  | [] => some []
  | (key, value) :: rest => do
    let value ← comesBack value
    let rest ← entriesComeBack rest
    some ((key, value) :: rest)

end

end

variable {bridge : Bridge}

theorem comesBack_leaf {k : K} (hleaf : k.IsLeaf) : comesBack bridge k = leafBack bridge k := by
  cases k with
  | MixedList values => cases hleaf
  | Dict entries => cases hleaf
  | _ => rw [comesBack.eq_def]

theorem castKToPyInner_deep (k : K) {depth : Nat} (hdepth : maxConversionDepth < depth) :
    castKToPyInner bridge k depth = .error (.ValueError "q value nesting exceeds 64 levels") := by
  rw [castKToPyInner.eq_def, if_pos hdepth]

/-- Extracting an integer that fits. -/
theorem castLeaf_int {value : Int} (hlow : -2 ^ 63 ≤ value) (hhigh : value < 2 ^ 63) (k : K) :
    castLeaf (.int value) = .ok k ↔ k = .I64 (Int64.ofInt value) := by
  have hfits : checkedI64 value = some (Int64.ofInt value) :=
    checkedI64_eq_some.mpr (Int64.toInt_ofInt_of_le hlow hhigh)
  simp only [castLeaf, hfits, Except.ok.injEq, eq_comm]

/-- One value without members, there and back. -/
theorem leaf_trip {k : K} (hleaf : k.IsLeaf) {depth : Nat} (hdepth : depth ≤ maxConversionDepth) (k' : K) :
    (∃ value, castKToPyInner bridge k depth = .ok value ∧ castValue value depth = .ok k') ↔
      leafBack bridge k = some k' := by
  have hnot : ¬ maxConversionDepth < depth := Nat.not_lt.mpr hdepth
  -- a leaf on the way is converted by `castLeaf`
  have hcast (leaf : Leaf) : castValue (.leaf leaf) depth = castLeaf leaf := by rw [castValue, if_neg hnot]
  have hone (leaf : Leaf) : (∃ value, (.ok (.leaf leaf) : Except Exception Value) = .ok value ∧
      castValue value depth = .ok k') ↔ castLeaf leaf = .ok k' := by
    constructor
    · rintro ⟨value, hvalue, hback⟩
      obtain rfl := Except.ok.inj hvalue
      rwa [hcast] at hback
    · intro h
      exact ⟨_, rfl, by rwa [hcast]⟩
  have hmany (run : Except Exception Leaf) : (∃ value, run.map Value.leaf = .ok value ∧ castValue value depth = .ok k') ↔
      ∃ leaf, run = .ok leaf ∧ castLeaf leaf = .ok k' := by
    cases run with
    | error error => simp [Except.map]
    | ok leaf =>
      rw [Except.map, hone]
      simp
  cases k with
  | MixedList values => cases hleaf
  | Dict entries => cases hleaf
  | Boolean value => rw [castKToPyInner, if_neg hnot, hone, leafBack, castLeaf, Except.ok.injEq, Option.some.injEq]
  | Guid value => rw [castKToPyInner, if_neg hnot, hone, leafBack, castLeaf, Except.ok.injEq, Option.some.injEq]
  | U8 value =>
    have hsmall := value.toNat_lt
    rw [castKToPyInner, if_neg hnot, hone, castLeaf_int (by omega) (by omega), leafBack, Option.some.injEq, eq_comm]
  | I16 value =>
    have hlow := value.le_toInt
    have hhigh := value.toInt_lt
    rw [castKToPyInner, if_neg hnot, hone, castLeaf_int (by omega) (by omega), leafBack, Option.some.injEq, eq_comm]
  | I32 value =>
    have hlow := value.le_toInt
    have hhigh := value.toInt_lt
    rw [castKToPyInner, if_neg hnot, hone, castLeaf_int (by omega) (by omega), leafBack, Option.some.injEq, eq_comm]
  | I64 value =>
    rw [castKToPyInner, if_neg hnot, hone, castLeaf_int value.le_toInt value.toInt_lt, leafBack, Option.some.injEq,
      Int64.ofInt_toInt, eq_comm]
  | F32 bits => rw [castKToPyInner, if_neg hnot, hone, leafBack, castLeaf, Except.ok.injEq, Option.some.injEq]
  | F64 bits => rw [castKToPyInner, if_neg hnot, hone, leafBack, castLeaf, Except.ok.injEq, Option.some.injEq]
  | Char value => rw [castKToPyInner, if_neg hnot, hone, leafBack, castLeaf, Except.ok.injEq, Option.some.injEq]
  | CharVector value =>
    rw [castKToPyInner, if_neg hnot, leafBack]
    cases Str.fromUtf8 value with
    | none =>
      dsimp only
      rw [hone, castLeaf, Except.ok.injEq]
      simp
    | some text =>
      dsimp only
      rw [hone, castLeaf, Except.ok.injEq]
      simp
  | Symbol value => rw [castKToPyInner, if_neg hnot, hone, leafBack, castLeaf, Except.ok.injEq, Option.some.injEq]
  | String value => rw [castKToPyInner, if_neg hnot, hone, leafBack, castLeaf, Except.ok.injEq, Option.some.injEq]
  | DateTime value =>
    rw [castKToPyInner, if_neg hnot, hmany, leafBack]
    simp only [castKDateTime_eq_ok]
    constructor
    · rintro ⟨leaf, ⟨found, rfl, htells⟩, hback⟩
      obtain ⟨hrange, rfl⟩ := (castDateTime_tells htells k').mp hback
      obtain ⟨hleap, hdigits⟩ := (exists_tells hrange).mp ⟨found, htells⟩
      rw [if_pos ⟨hleap, hdigits, hrange⟩]
    · intro h
      obtain ⟨⟨hleap, hdigits, hrange⟩, hsame⟩ := Option.ite_none_right_eq_some.mp h
      obtain ⟨found, htells⟩ := (exists_tells hrange).mpr ⟨hleap, hdigits⟩
      exact ⟨_, ⟨found, rfl, htells⟩, (castDateTime_tells htells k').mpr ⟨hrange, (Option.some.inj hsame).symm⟩⟩
  | Date value =>
    have hdate (found : Date) : castValue (.leaf (.date found)) depth = .ok k' ↔ K.Date found.naive = k' := by
      rw [hcast, castLeaf, Except.ok.injEq]
    rw [castKToPyInner, if_neg hnot, leafBack]
    constructor
    · rintro ⟨found, hfound, hback⟩
      obtain ⟨date, hparts, rfl⟩ := map_eq_ok.mp hfound
      have hnumber := pythonDateParts_ok hparts
      have hbounds := date.number_bounds
      rw [if_pos (by omega), ← (hdate date).mp hback, Date.naive_eq hnumber]
    · intro h
      obtain ⟨⟨hlow, hhigh⟩, hsame⟩ := Option.ite_none_right_eq_some.mp h
      obtain ⟨date, hparts, hnumber⟩ := pythonDateParts_of_bounds hlow hhigh
      refine ⟨_, map_eq_ok.mpr ⟨date, hparts, rfl⟩, (hdate date).mpr ?_⟩
      rw [Date.naive_eq hnumber, Option.some.inj hsame]
  | Time value =>
    rw [castKToPyInner, if_neg hnot, hmany, leafBack]
    simp only [castKTime_eq_ok]
    constructor
    · rintro ⟨leaf, ⟨time, rfl, rfl⟩, hback⟩
      obtain ⟨hleap, -⟩ := exists_time.mp ⟨time, rfl⟩
      rw [castLeaf] at hback
      by_cases hdigits : time.naive.frac % 1000000 ≠ 0
      · rw [if_pos hdigits] at hback
        cases hback
      · rw [if_neg hdigits] at hback
        rw [if_pos ⟨hleap, not_not.mp hdigits⟩, Except.ok.inj hback]
    · intro h
      obtain ⟨⟨hleap, hdigits⟩, hsame⟩ := Option.ite_none_right_eq_some.mp h
      obtain ⟨time, htime⟩ := exists_time.mpr ⟨hleap, by omega⟩
      refine ⟨_, ⟨time, rfl, htime⟩, ?_⟩
      rw [castLeaf, htime, if_neg (not_not.mpr hdigits), Option.some.inj hsame]
  | Duration value =>
    rw [castKToPyInner, if_neg hnot, hmany, leafBack]
    simp only [castKDuration_eq_ok]
    constructor
    · rintro ⟨leaf, ⟨hfits, delta, rfl, rfl⟩, hback⟩
      obtain ⟨nanoseconds, hnanos⟩ := Option.isSome_iff_exists.mp hfits
      rw [castLeaf, hnanos] at hback
      rw [if_pos ⟨hfits, (exists_delta hfits).mp ⟨delta, rfl⟩⟩, Except.ok.inj hback]
    · intro h
      obtain ⟨⟨hfits, hdigits⟩, hsame⟩ := Option.ite_none_right_eq_some.mp h
      obtain ⟨delta, rfl⟩ := (exists_delta hfits).mpr hdigits
      obtain ⟨nanoseconds, hnanos⟩ := Option.isSome_iff_exists.mp hfits
      refine ⟨_, ⟨hfits, delta, rfl, rfl⟩, ?_⟩
      rw [castLeaf, hnanos, Option.some.inj hsame]
  | Series value =>
    rw [castKToPyInner, if_neg hnot, hone, leafBack, castLeaf]
    cases bridge.series value <;> simp [Except.toOption, Except.map]
  | DataFrame value =>
    rw [castKToPyInner, if_neg hnot, hone, leafBack, castLeaf]
    cases bridge.frame value <;> simp [Except.toOption, Except.map]
  | Operator value => rw [castKToPyInner, if_neg hnot, hone, leafBack, castLeaf, Except.ok.injEq, Option.some.injEq]
  | Lambda value => rw [castKToPyInner, if_neg hnot, hone, leafBack, castLeaf, Except.ok.injEq, Option.some.injEq]
  | QValue value => rw [castKToPyInner, if_neg hnot, hone, leafBack, castLeaf, Except.ok.injEq, Option.some.injEq]
  | Null => rw [castKToPyInner, if_neg hnot, hone, leafBack, castLeaf, Except.ok.injEq, Option.some.injEq]

/-! ## Lists and dictionaries -/

theorem height_leaf {k : K} (hleaf : k.IsLeaf) : k.height = 0 := by
  cases k with
  | MixedList values => cases hleaf
  | Dict entries => cases hleaf
  | _ => rw [K.height.eq_def]

theorem heights_le_iff {values : List K} {n : Nat} : K.heights values ≤ n ↔ ∀ value ∈ values, value.height + 1 ≤ n := by
  induction values with
  | nil => simp [K.heights]
  | cons value values ih => simp [K.heights, ih]

theorem entryHeights_eq (entries : List (Str × K)) : K.entryHeights entries = K.heights (entries.map Prod.snd) := by
  induction entries with
  | nil => rfl
  | cons entry entries ih => rw [K.entryHeights, List.map_cons, K.heights, ih]

theorem levels_iff {values : List K} {depth : Nat} (hdepth : depth ≤ maxConversionDepth) :
    depth + K.heights values ≤ maxConversionDepth ↔
      ∀ value ∈ values, depth + 1 + value.height ≤ maxConversionDepth := by
  have hle := @heights_le_iff values (maxConversionDepth - depth)
  constructor
  · intro h value hvalue
    have := hle.mp (by omega) value hvalue
    omega
  · intro h
    have := hle.mpr fun value hvalue => by
      have := h value hvalue
      omega
    omega

/-- A value goes there and comes back at a depth. -/
def Trip (bridge : Bridge) (k : K) (depth : Nat) : Prop :=
  ∀ k', (∃ value, castKToPyInner bridge k depth = .ok value ∧ castValue value depth = .ok k') ↔
    comesBack bridge k = some k' ∧ depth + k.height ≤ maxConversionDepth

theorem items_trip {values : List K} {depth : Nat} (h : ∀ value ∈ values, Trip bridge value depth) (ks : List K) :
    (∃ items, castKItems bridge values depth = .ok items ∧ castValues items depth = .ok ks) ↔
      comeBack bridge values = some ks ∧ ∀ value ∈ values, depth + value.height ≤ maxConversionDepth := by
  induction values generalizing ks with
  | nil =>
    rw [castKItems, comeBack]
    constructor
    · rintro ⟨items, hitems, hback⟩
      cases hitems
      cases hback
      exact ⟨rfl, by simp⟩
    · rintro ⟨hback, -⟩
      cases hback
      exact ⟨[], rfl, rfl⟩
  | cons value values ih =>
    obtain ⟨hvalue, hvalues⟩ := List.forall_mem_cons.mp h
    have hrest := ih hvalues
    simp only [castKItems, comeBack, bind_eq_ok, Except.ok.injEq, Option.bind_eq_bind, Option.bind_eq_some_iff,
      Option.some.injEq, List.forall_mem_cons]
    constructor
    · rintro ⟨items, ⟨item, hitem, rest, hitems, rfl⟩, hback⟩
      simp only [castValues, bind_eq_ok, Except.ok.injEq] at hback
      obtain ⟨k, hk, ks, hks, rfl⟩ := hback
      obtain ⟨hcomes, hheight⟩ := (hvalue k).mp ⟨item, hitem, hk⟩
      obtain ⟨hcome, hheights⟩ := (hrest ks).mp ⟨rest, hitems, hks⟩
      exact ⟨⟨k, hcomes, ks, hcome, rfl⟩, hheight, hheights⟩
    · rintro ⟨⟨k, hcomes, ks, hcome, rfl⟩, hheight, hheights⟩
      obtain ⟨item, hitem, hk⟩ := (hvalue k).mpr ⟨hcomes, hheight⟩
      obtain ⟨rest, hitems, hks⟩ := (hrest ks).mpr ⟨hcome, hheights⟩
      refine ⟨item :: rest, ⟨item, hitem, rest, hitems, rfl⟩, ?_⟩
      simp only [castValues, bind_eq_ok, Except.ok.injEq]
      exact ⟨k, hk, ks, hks, rfl⟩

theorem setEntry_new {α : Type} {dict : List (Str × α)} {key : Str} (h : key ∉ dict.map Prod.fst) (value : α) :
    setEntry dict key value = dict ++ [(key, value)] := by
  rw [setEntry, if_neg h]

/-- The keys of what is inserted next are new. -/
theorem nodup_insert {α β : Type} {dict : List (Str × α)} {key : Str} {value : α} {entries : List (Str × β)}
    (h : (dict.map Prod.fst ++ key :: entries.map Prod.fst).Nodup) :
    key ∉ dict.map Prod.fst ∧ ((dict ++ [(key, value)]).map Prod.fst ++ entries.map Prod.fst).Nodup := by
  constructor
  · intro hmem
    exact (List.nodup_append.mp h).2.2 key hmem key List.mem_cons_self rfl
  · simpa [List.append_assoc] using h

theorem insertAll_distinct {α : Type} {dict entries : List (Str × α)}
    (h : (dict.map Prod.fst ++ entries.map Prod.fst).Nodup) : insertAll dict entries = dict ++ entries := by
  induction entries generalizing dict with
  | nil => simp [insertAll]
  | cons entry entries ih =>
    rw [List.map_cons] at h
    obtain ⟨hnew, hrest⟩ := @nodup_insert α α dict entry.1 entry.2 entries h
    have hstep : insertAll dict (entry :: entries) = insertAll (setEntry dict entry.1 entry.2) entries := rfl
    rw [hstep, setEntry_new hnew, ih hrest, List.append_assoc, List.singleton_append]

theorem castKEntries_distinct {dict : List (Str × Value)} {entries : List (Str × K)} {depth : Nat}
    (h : (dict.map Prod.fst ++ entries.map Prod.fst).Nodup) :
    castKEntries bridge entries depth dict = (castKItems bridge (entries.map Prod.snd) depth).map fun items =>
      dict ++ (entries.map Prod.fst).zip items := by
  induction entries generalizing dict with
  | nil => simp [castKEntries, castKItems, Except.map]
  | cons entry entries ih =>
    obtain ⟨key, value⟩ := entry
    simp only [List.map_cons] at h ⊢
    rw [castKEntries, castKItems]
    cases castKToPyInner bridge value depth with
    | error error => rfl
    | ok item =>
      obtain ⟨hnew, hrest⟩ := @nodup_insert Value K dict key item entries h
      simp only [bind, Except.bind]
      rw [setEntry_new hnew, ih hrest]
      cases castKItems bridge (entries.map Prod.snd) depth with
      | error error => rfl
      | ok items => simp [Except.map]

theorem castValueEntries_zip {keys : List Str} {items : List Value} (hlength : keys.length = items.length) (depth : Nat) :
    castValueEntries (keys.zip items) depth = (castValues items depth).map (keys.zip ·) := by
  induction keys generalizing items with
  | nil =>
    obtain rfl := List.length_eq_zero_iff.mp hlength.symm
    rfl
  | cons key keys ih =>
    cases items with
    | nil => simp at hlength
    | cons item items =>
      rw [List.zip_cons_cons, castValueEntries, castValues, ih (Nat.succ.inj hlength)]
      cases castValue item depth with
      | error error => rfl
      | ok k => cases castValues items depth <;> rfl

theorem entriesComeBack_eq (entries : List (Str × K)) :
    entriesComeBack bridge entries =
      (comeBack bridge (entries.map Prod.snd)).map ((entries.map Prod.fst).zip ·) := by
  induction entries with
  | nil => rfl
  | cons entry entries ih =>
    obtain ⟨key, value⟩ := entry
    rw [entriesComeBack, List.map_cons, List.map_cons, comeBack, ih]
    cases comesBack bridge value with
    | none => rfl
    | some k => cases comeBack bridge (entries.map Prod.snd) <;> rfl

theorem castKItems_length {values : List K} {depth : Nat} {items : List Value}
    (h : castKItems bridge values depth = .ok items) : items.length = values.length := by
  induction values generalizing items with
  | nil =>
    cases h
    rfl
  | cons value values ih =>
    simp only [castKItems, bind_eq_ok, Except.ok.injEq] at h
    obtain ⟨item, -, rest, hrest, rfl⟩ := h
    rw [List.length_cons, List.length_cons, ih hrest]

theorem castValues_length {items : List Value} {depth : Nat} {ks : List K} (h : castValues items depth = .ok ks) :
    ks.length = items.length := by
  induction items generalizing ks with
  | nil =>
    cases h
    rfl
  | cons item items ih =>
    simp only [castValues, bind_eq_ok, Except.ok.injEq] at h
    obtain ⟨k, -, rest, hrest, rfl⟩ := h
    rw [List.length_cons, List.length_cons, ih hrest]

/-- A dictionary with different keys is as its values are. -/
theorem entries_trip {entries : List (Str × K)} {depth : Nat} (hkeys : (entries.map Prod.fst).Nodup) (k' : K) :
    (∃ found, castKEntries bridge entries depth [] = .ok found ∧
      (castValueEntries found depth).map (fun entries => K.Dict (insertAll [] entries)) = .ok k') ↔
    ∃ ks, (∃ items, castKItems bridge (entries.map Prod.snd) depth = .ok items ∧ castValues items depth = .ok ks) ∧
      k' = .Dict ((entries.map Prod.fst).zip ks) := by
  have hdistinct : (([] : List (Str × Value)).map Prod.fst ++ entries.map Prod.fst).Nodup := hkeys
  simp only [castKEntries_distinct hdistinct, map_eq_ok, List.nil_append]
  -- the keys of the dictionary that comes back are the keys
  have hback {items : List Value} {ks : List K} (hitems : castKItems bridge (entries.map Prod.snd) depth = .ok items)
      (hks : castValues items depth = .ok ks) :
      castValueEntries ((entries.map Prod.fst).zip items) depth = .ok ((entries.map Prod.fst).zip ks) ∧
        insertAll [] ((entries.map Prod.fst).zip ks) = (entries.map Prod.fst).zip ks := by
    have hitemsLength := castKItems_length hitems
    have hksLength := castValues_length hks
    rw [List.length_map] at hitemsLength
    constructor
    · rw [castValueEntries_zip (by rw [List.length_map, hitemsLength]), hks]
      rfl
    · rw [insertAll_distinct, List.nil_append]
      rw [List.map_nil, List.nil_append, List.map_fst_zip (by rw [List.length_map, hksLength, hitemsLength])]
      exact hkeys
  constructor
  · rintro ⟨found, ⟨items, hitems, rfl⟩, inserted, hinserted, rfl⟩
    have hzip := hinserted
    rw [castValueEntries_zip (by rw [List.length_map, castKItems_length hitems, List.length_map])] at hzip
    obtain ⟨ks, hks, -⟩ := map_eq_ok.mp hzip
    obtain ⟨hsame, hinsert⟩ := hback hitems hks
    obtain rfl := Except.ok.inj (hinserted.symm.trans hsame)
    exact ⟨ks, ⟨items, hitems, hks⟩, by rw [hinsert]⟩
  · rintro ⟨ks, ⟨items, hitems, hks⟩, rfl⟩
    obtain ⟨hsame, hinsert⟩ := hback hitems hks
    exact ⟨_, ⟨items, hitems, rfl⟩, _, hsame, by rw [hinsert]⟩

/-- Every value, by induction over it. -/
theorem trip (k : K) : k.KeysDistinct → ∀ depth, Trip bridge k depth := by
  induction k using K.induct with
  | leaf k hleaf =>
    intro _ depth k'
    have hheight := height_leaf hleaf
    by_cases hdeep : maxConversionDepth < depth
    · rw [castKToPyInner_deep k hdeep, hheight]
      simp [hdeep]
    · rw [leaf_trip hleaf (Nat.not_lt.mp hdeep), comesBack_leaf hleaf, hheight]
      simp [Nat.not_lt.mp hdeep]
  | mixedList values ih =>
    intro hkeys depth k'
    by_cases hdeep : maxConversionDepth < depth
    · rw [castKToPyInner_deep _ hdeep]
      simp
      omega
    have hitems := items_trip fun value hvalue => ih value hvalue (K.allKeysDistinct_iff.mp hkeys value hvalue) (depth + 1)
    rw [K.height, levels_iff (Nat.not_lt.mp hdeep), comesBack, castKToPyInner, if_neg hdeep]
    simp only [bind_eq_ok, Except.ok.injEq, Option.map_eq_some_iff]
    constructor
    · rintro ⟨value, ⟨items, hcast, rfl⟩, hback⟩
      rw [castValue, if_neg hdeep] at hback
      obtain ⟨ks, hks, rfl⟩ := map_eq_ok.mp hback
      obtain ⟨hcome, hlevels⟩ := (hitems ks).mp ⟨items, hcast, hks⟩
      exact ⟨⟨ks, hcome, rfl⟩, hlevels⟩
    · rintro ⟨⟨ks, hcome, rfl⟩, hlevels⟩
      obtain ⟨items, hcast, hks⟩ := (hitems ks).mpr ⟨hcome, hlevels⟩
      refine ⟨.tuple items, ⟨items, hcast, rfl⟩, ?_⟩
      rw [castValue, if_neg hdeep, hks]
      rfl
  | dict entries ih =>
    intro hkeys depth k'
    obtain ⟨hnodup, hvalues⟩ := hkeys
    by_cases hdeep : maxConversionDepth < depth
    · rw [castKToPyInner_deep _ hdeep]
      simp
      omega
    have hitems := @items_trip bridge (entries.map Prod.snd) (depth + 1) fun value hvalue => by
      obtain ⟨entry, hentry, rfl⟩ := List.mem_map.mp hvalue
      exact ih entry hentry (K.entriesKeysDistinct_iff.mp hvalues entry hentry) (depth + 1)
    rw [K.height, entryHeights_eq, levels_iff (Nat.not_lt.mp hdeep), comesBack, entriesComeBack_eq, castKToPyInner,
      if_neg hdeep]
    have hentries := @entries_trip bridge entries (depth + 1) hnodup k'
    simp only [bind_eq_ok, Except.ok.injEq, Option.map_map, Option.map_eq_some_iff, Function.comp_apply]
    constructor
    · rintro ⟨value, ⟨found, hcast, rfl⟩, hback⟩
      rw [castValue, if_neg hdeep] at hback
      obtain ⟨ks, hks, rfl⟩ := hentries.mp ⟨found, hcast, hback⟩
      obtain ⟨hcome, hlevels⟩ := (hitems ks).mp hks
      exact ⟨⟨ks, hcome, rfl⟩, hlevels⟩
    · rintro ⟨⟨ks, hcome, rfl⟩, hlevels⟩
      obtain ⟨found, hcast, hback⟩ := hentries.mpr ⟨ks, (hitems ks).mpr ⟨hcome, hlevels⟩, rfl⟩
      refine ⟨.dict found, ⟨found, hcast, rfl⟩, ?_⟩
      rw [castValue, if_neg hdeep]
      exact hback

/-! ## Once and for all -/

/-- What Arrow brings back, it brings back again. -/
def Bridge.Stable (bridge : Bridge) : Prop :=
  (∀ series value, bridge.series series = .ok value → comesBack bridge value.k = some value.k) ∧
    ∀ frame value, bridge.frame frame = .ok value → comesBack bridge value.k = some value.k

theorem toOption_eq_some {α : Type} {result : Except Exception α} {value : α} :
    result.toOption = some value ↔ result = .ok value := by
  cases result <;> simp [Except.toOption]

/-- What comes back of a value without members is such a value that stays as it is, or Arrow has made it. -/
theorem leafBack_cases {k k' : K} (hleaf : k.IsLeaf) (h : leafBack bridge k = some k') :
    (k'.IsLeaf ∧ leafBack bridge k' = some k') ∨ ∃ value : ArrowValue, k' = value.k ∧
      ((∃ series, bridge.series series = .ok value) ∨ ∃ frame, bridge.frame frame = .ok value) := by
  have hagain {found : K} (h : some found = some k') (hfound : found.IsLeaf)
      (hsame : leafBack bridge found = some found) : k'.IsLeaf ∧ leafBack bridge k' = some k' := by
    obtain rfl := Option.some.inj h
    exact ⟨hfound, hsame⟩
  cases k with
  | MixedList values => cases hleaf
  | Dict entries => cases hleaf
  | CharVector value =>
    rw [leafBack] at h
    cases htext : Str.fromUtf8 value with
    | none =>
      rw [htext] at h
      refine .inl (@hagain (.CharVector value) h trivial ?_)
      rw [leafBack, htext]
      rfl
    | some text =>
      rw [htext] at h
      exact .inl (@hagain (.Symbol text) h trivial rfl)
  | DateTime value =>
    obtain ⟨hfits, hsame⟩ := Option.ite_none_right_eq_some.mp h
    exact .inl (hagain hsame trivial (if_pos hfits))
  | Date value =>
    obtain ⟨hfits, hsame⟩ := Option.ite_none_right_eq_some.mp h
    exact .inl (hagain hsame trivial (if_pos hfits))
  | Time value =>
    obtain ⟨hfits, hsame⟩ := Option.ite_none_right_eq_some.mp h
    exact .inl (hagain hsame trivial (if_pos hfits))
  | Duration value =>
    obtain ⟨hfits, hsame⟩ := Option.ite_none_right_eq_some.mp h
    exact .inl (hagain hsame trivial (if_pos hfits))
  | Series value =>
    obtain ⟨found, hfound, rfl⟩ := Option.map_eq_some_iff.mp h
    exact .inr ⟨found, rfl, .inl ⟨value, toOption_eq_some.mp hfound⟩⟩
  | DataFrame value =>
    obtain ⟨found, hfound, rfl⟩ := Option.map_eq_some_iff.mp h
    exact .inr ⟨found, rfl, .inr ⟨value, toOption_eq_some.mp hfound⟩⟩
  | _ => exact .inl (hagain h trivial rfl)

theorem leafBack_isLeaf {k k' : K} (hleaf : k.IsLeaf) (h : leafBack bridge k = some k') : k'.IsLeaf := by
  rcases leafBack_cases hleaf h with ⟨hback, -⟩ | ⟨value, rfl, -⟩
  · exact hback
  · cases value <;> trivial

theorem leafBack_again (hstable : bridge.Stable) {k k' : K} (hleaf : k.IsLeaf) (h : leafBack bridge k = some k') :
    comesBack bridge k' = some k' := by
  rcases leafBack_cases hleaf h with ⟨hback, hsame⟩ | ⟨value, rfl, ⟨series, hmade⟩ | ⟨frame, hmade⟩⟩
  · rw [comesBack_leaf hback, hsame]
  · exact hstable.1 series value hmade
  · exact hstable.2 frame value hmade

theorem comeBack_again {values ks : List K} (ih : ∀ value ∈ values, ∀ k', comesBack bridge value = some k' →
    comesBack bridge k' = some k') (h : comeBack bridge values = some ks) : comeBack bridge ks = some ks := by
  induction values generalizing ks with
  | nil =>
    cases h
    rfl
  | cons value values ihs =>
    obtain ⟨hvalue, hvalues⟩ := List.forall_mem_cons.mp ih
    simp only [comeBack, Option.bind_eq_bind, Option.bind_eq_some_iff, Option.some.injEq] at h
    obtain ⟨k, hk, rest, hrest, rfl⟩ := h
    rw [comeBack, hvalue k hk, ihs hvalues hrest]
    rfl

theorem comeBack_length {values ks : List K} (h : comeBack bridge values = some ks) : ks.length = values.length := by
  induction values generalizing ks with
  | nil =>
    cases h
    rfl
  | cons value values ih =>
    simp only [comeBack, Option.bind_eq_bind, Option.bind_eq_some_iff, Option.some.injEq] at h
    obtain ⟨k, -, rest, hrest, rfl⟩ := h
    rw [List.length_cons, List.length_cons, ih hrest]

/-- What has come back comes back as it is. -/
theorem comesBack_again (hstable : bridge.Stable) (k : K) :
    ∀ k', comesBack bridge k = some k' → comesBack bridge k' = some k' := by
  induction k using K.induct with
  | leaf k hleaf =>
    intro k' h
    rw [comesBack_leaf hleaf] at h
    exact leafBack_again hstable hleaf h
  | mixedList values ih =>
    intro k' h
    rw [comesBack] at h
    obtain ⟨ks, hks, rfl⟩ := Option.map_eq_some_iff.mp h
    rw [comesBack, comeBack_again ih hks]
    rfl
  | dict entries ih =>
    intro k' h
    rw [comesBack, entriesComeBack_eq] at h
    obtain ⟨back, hback, rfl⟩ := Option.map_eq_some_iff.mp h
    obtain ⟨ks, hks, rfl⟩ := Option.map_eq_some_iff.mp hback
    have hagain := comeBack_again (fun value hvalue => by
      obtain ⟨entry, hentry, rfl⟩ := List.mem_map.mp hvalue
      exact ih entry hentry) hks
    have hlength := comeBack_length hks
    rw [List.length_map] at hlength
    rw [comesBack, entriesComeBack_eq, List.map_fst_zip (by rw [List.length_map, hlength]),
      List.map_snd_zip (by rw [List.length_map, hlength]), hagain]
    rfl

theorem keysDistinct_leaf {k : K} (hleaf : k.IsLeaf) : k.KeysDistinct := by
  cases k with
  | MixedList values => cases hleaf
  | Dict entries => cases hleaf
  | _ => trivial

/-- A value of the same nesting, with different keys where the other has them. -/
def SameShape (k k' : K) : Prop := k'.height = k.height ∧ (k.KeysDistinct → k'.KeysDistinct)

theorem comeBack_shape {values ks : List K} (ih : ∀ value ∈ values, ∀ k', comesBack bridge value = some k' →
    SameShape value k') (h : comeBack bridge values = some ks) :
    K.heights ks = K.heights values ∧ (K.AllKeysDistinct values → K.AllKeysDistinct ks) := by
  induction values generalizing ks with
  | nil =>
    cases h
    exact ⟨rfl, id⟩
  | cons value values ihs =>
    obtain ⟨hvalue, hvalues⟩ := List.forall_mem_cons.mp ih
    simp only [comeBack, Option.bind_eq_bind, Option.bind_eq_some_iff, Option.some.injEq] at h
    obtain ⟨k, hk, rest, hrest, rfl⟩ := h
    obtain ⟨hheight, hkeys⟩ := hvalue k hk
    obtain ⟨hheights, hall⟩ := ihs hvalues hrest
    exact ⟨by rw [K.heights, K.heights, hheight, hheights], fun hdistinct => ⟨hkeys hdistinct.1, hall hdistinct.2⟩⟩

theorem entriesKeysDistinct_values {entries : List (Str × K)} :
    K.EntriesKeysDistinct entries ↔ K.AllKeysDistinct (entries.map Prod.snd) := by
  rw [K.entriesKeysDistinct_iff, K.allKeysDistinct_iff, List.forall_mem_map]

/-- What has come back is nested as before, under the same keys. -/
theorem comesBack_shape (k : K) : ∀ k', comesBack bridge k = some k' → SameShape k k' := by
  induction k using K.induct with
  | leaf k hleaf =>
    intro k' h
    rw [comesBack_leaf hleaf] at h
    have hback := leafBack_isLeaf hleaf h
    exact ⟨(height_leaf hback).trans (height_leaf hleaf).symm, fun _ => keysDistinct_leaf hback⟩
  | mixedList values ih =>
    intro k' h
    rw [comesBack] at h
    obtain ⟨ks, hks, rfl⟩ := Option.map_eq_some_iff.mp h
    exact comeBack_shape ih hks
  | dict entries ih =>
    intro k' h
    rw [comesBack, entriesComeBack_eq] at h
    obtain ⟨back, hback, rfl⟩ := Option.map_eq_some_iff.mp h
    obtain ⟨ks, hks, rfl⟩ := Option.map_eq_some_iff.mp hback
    obtain ⟨hheights, hall⟩ := comeBack_shape (fun value hvalue => by
      obtain ⟨entry, hentry, rfl⟩ := List.mem_map.mp hvalue
      exact ih entry hentry) hks
    have hlength := comeBack_length hks
    rw [List.length_map] at hlength
    have hfst := List.map_fst_zip (show (entries.map Prod.fst).length ≤ ks.length by rw [List.length_map, hlength])
    have hsnd := List.map_snd_zip (show ks.length ≤ (entries.map Prod.fst).length by rw [List.length_map, hlength])
    constructor
    · rw [K.height, K.height, entryHeights_eq, entryHeights_eq, hsnd, hheights]
    · rintro ⟨hnodup, hvalues⟩
      rw [entriesKeysDistinct_values] at hvalues
      refine ⟨by rwa [hfst], ?_⟩
      rw [entriesKeysDistinct_values, hsnd]
      exact hall hvalues

/-- One trip of a value, over any objects that show what Python holds of it. -/
theorem one_trip {k : K} (hkeys : k.KeysDistinct) :
    (∀ value, castKToPy bridge k = .ok value →
      ∀ (Ref : Type) [DecidableEq Ref] (heap : Ref → Object Ref) (ref : Ref), Shows heap ref value →
        ∀ k', castToK heap ref = .ok k' ↔ comesBack bridge k = some k' ∧ k.height ≤ maxConversionDepth) ∧
    (∀ k', comesBack bridge k = some k' → k.height ≤ maxConversionDepth → ∃ value, castKToPy bridge k = .ok value) := by
  have htrip (k' : K) : (∃ value, castKToPy bridge k = .ok value ∧ castValue value 0 = .ok k') ↔
      comesBack bridge k = some k' ∧ k.height ≤ maxConversionDepth := by
    have htrip := @trip bridge k hkeys 0 k'
    rwa [Nat.zero_add] at htrip
  constructor
  · intro value hvalue Ref _ heap ref hshows k'
    rw [castToK, castToKInner_shows hshows, ← htrip]
    constructor
    · intro hback
      exact ⟨value, hvalue, hback⟩
    · rintro ⟨found, hfound, hback⟩
      obtain rfl := Except.ok.inj (hvalue.symm.trans hfound)
      exact hback
  · intro k' hback hheight
    obtain ⟨value, hvalue, -⟩ := (htrip k').mpr ⟨hback, hheight⟩
    exact ⟨value, hvalue⟩

/-- **What goes to Python and comes back** is the value with its integers as longs, its floats in 64
bits and its texts as symbols, in the same lists and dictionaries, however Python shares the objects
in between. It comes back exactly when no clock in it has more digits than the other side keeps, no
date or time is out of range and nothing is nested deeper than 64 levels; from then on it stays as
it is. -/
theorem python_round_trip (bridge : Bridge) (k : K) (hkeys : k.KeysDistinct) :
    (∀ value, castKToPy bridge k = .ok value →
      ∀ (Ref : Type) [DecidableEq Ref] (heap : Ref → Object Ref) (ref : Ref), Shows heap ref value →
        ∀ k', castToK heap ref = .ok k' ↔ comesBack bridge k = some k' ∧ k.height ≤ maxConversionDepth) ∧
    (∀ k', comesBack bridge k = some k' → k.height ≤ maxConversionDepth → ∃ value, castKToPy bridge k = .ok value) ∧
    (bridge.Stable → ∀ k', comesBack bridge k = some k' →
      comesBack bridge k' = some k' ∧ k'.KeysDistinct ∧ k'.height = k.height ∧
        (k.height ≤ maxConversionDepth → ∃ again, castKToPy bridge k' = .ok again ∧
          ∀ (Ref : Type) [DecidableEq Ref] (heap : Ref → Object Ref) (ref : Ref), Shows heap ref again →
            castToK heap ref = .ok k')) := by
  obtain ⟨hback, hthere⟩ := @one_trip bridge k hkeys
  refine ⟨hback, hthere, fun hstable k' hcomes => ?_⟩
  have hagain := comesBack_again hstable k k' hcomes
  obtain ⟨hheight, hdistinct⟩ := comesBack_shape k k' hcomes
  refine ⟨hagain, hdistinct hkeys, hheight, fun hlevels => ?_⟩
  -- the second trip is the first trip of what has come back
  rw [← hheight] at hlevels
  obtain ⟨hback', hthere'⟩ := @one_trip bridge k' (hdistinct hkeys)
  obtain ⟨again, hcast⟩ := hthere' k' hagain hlevels
  exact ⟨again, hcast, fun Ref _ heap ref hshows => (hback' again hcast Ref heap ref hshows k').mpr ⟨hagain, hlevels⟩⟩

/-- A list of two bytes and a character, which Python holds as a tuple with one number in two places.
It comes back with longs and a symbol, and the second time as it is. -/
theorem python_round_trip_shared :
    let bridge : Bridge := ⟨fun series => .ok (.Series series), fun frame => .ok (.DataFrame frame)⟩
    let text := Str.ofText ['b']
    let heap : Nat → Object Nat := fun ref =>
      if ref = 0 then .tuple [1, 2, 1] else if ref = 1 then .leaf (.int 7) else .leaf (.str (some text))
    let sent := K.MixedList [.U8 7, .Char 98, .U8 7]
    let back := K.MixedList [.I64 7, .Symbol text, .I64 7]
    bridge.Stable ∧ castKToPy bridge sent = .ok (.tuple [.leaf (.int 7), .leaf (.str (some text)), .leaf (.int 7)]) ∧
      castToK heap 0 = .ok back ∧ comesBack bridge back = some back ∧
      ∃ again, castKToPy bridge back = .ok again ∧
        ∀ (heap : Nat → Object Nat) (ref : Nat), Shows heap ref again → castToK heap ref = .ok back := by
  intro bridge text heap sent back
  have hstable : bridge.Stable := by
    constructor
    · intro series value hvalue
      obtain rfl := Except.ok.inj hvalue
      rfl
    · intro frame value hvalue
      obtain rfl := Except.ok.inj hvalue
      rfl
  have hkeys : sent.KeysDistinct := ⟨trivial, trivial, trivial, trivial⟩
  have hcast : castKToPy bridge sent =
      .ok (.tuple [.leaf (.int 7), .leaf (.str (some text)), .leaf (.int 7)]) := rfl
  have hshows : Shows heap 0 (.tuple [.leaf (.int 7), .leaf (.str (some text)), .leaf (.int 7)]) := by
    refine @Shows.tuple Nat heap 0 [1, 2, 1] _ rfl rfl ?_
    simp only [List.zip_cons_cons, List.zip_nil_right, List.forall_mem_cons]
    exact ⟨.leaf rfl, .leaf rfl, .leaf rfl, by simp⟩
  have hlevels : sent.height ≤ maxConversionDepth := by decide
  obtain ⟨hback, -, hsecond⟩ := python_round_trip bridge sent hkeys
  obtain ⟨hsame, -, -, htrip⟩ := hsecond hstable back rfl
  obtain ⟨again, hagain, hshown⟩ := htrip hlevels
  exact ⟨hstable, hcast, (hback _ hcast Nat heap 0 hshows _).mpr ⟨rfl, hlevels⟩, hsame, again, hagain, hshown Nat⟩

/-! ## The other way round -/

/-- Objects of the kinds that q's values come as: a text that is one, octets that are none, and a
`datetime` without a zone. -/
def Leaf.Settled : Leaf → Prop
  | .bytes value => Str.fromUtf8 value = Option.none
  | .arrow _ => False
  | .datetime value => value.Settled
  | _ => True

mutual

/-- Tuples and dictionaries of such objects. -/
def Value.Settled : Value → Prop
  | .leaf value => value.Settled
  | .dict entries => (entries.map Prod.fst).Nodup ∧ EntriesSettled entries
  | .list _ => False
  | .tuple items => ItemsSettled items

def ItemsSettled : List Value → Prop
  | [] => True
  | item :: rest => item.Settled ∧ ItemsSettled rest

def EntriesSettled : List (Str × Value) → Prop
  | [] => True
  | (_, value) :: rest => value.Settled ∧ EntriesSettled rest

end

theorem DateTime.tells_wall {found : DateTime} (h : found.Settled) : found.Tells (ofUnixNanoseconds (found.wall * 1000)) := by
  have hbounds := found.time.bounds
  have hseconds : found.time.seconds < 86400 := by
    unfold Time.seconds
    omega
  refine ⟨h, ?_, ?_, ?_⟩
  · simp only [ofUnixNanoseconds, DateTime.wall, microsecondsPerSecond]
    omega
  · simp only [ofUnixNanoseconds, DateTime.wall, microsecondsPerSecond]
    omega
  · simp only [ofUnixNanoseconds, DateTime.wall, microsecondsPerSecond]
    omega

theorem leaf_returns {leaf : Leaf} (hsettled : leaf.Settled) {k : K} (h : castLeaf leaf = .ok k) {depth : Nat}
    (hdepth : depth ≤ maxConversionDepth) : castKToPyInner bridge k depth = .ok (.leaf leaf) ∧ k.KeysDistinct := by
  have hnot : ¬ maxConversionDepth < depth := Nat.not_lt.mpr hdepth
  cases leaf with
  | int value =>
    rw [castLeaf] at h
    cases hfits : checkedI64 value with
    | none =>
      rw [hfits] at h
      cases h
    | some word =>
      rw [hfits] at h
      obtain rfl := Except.ok.inj h
      rw [castKToPyInner, if_neg hnot, checkedI64_eq_some.mp hfits]
      exact ⟨rfl, trivial⟩
  | str text =>
    cases text with
    | none => cases h
    | some text =>
      obtain rfl := Except.ok.inj h
      rw [castKToPyInner, if_neg hnot]
      exact ⟨rfl, trivial⟩
  | bytes value =>
    obtain rfl := Except.ok.inj h
    have hnone : Str.fromUtf8 value = none := hsettled
    rw [castKToPyInner, if_neg hnot, hnone]
    exact ⟨rfl, trivial⟩
  | arrow imported => cases hsettled
  | datetime value =>
    have hvalue : value.Settled := hsettled
    have htells := DateTime.tells_wall hvalue
    obtain ⟨-, rfl⟩ := (castDateTime_tells htells k).mp h
    rw [castKToPyInner, if_neg hnot, castKDateTime_eq_ok.mpr ⟨value, rfl, htells⟩]
    exact ⟨rfl, trivial⟩
  | date value =>
    obtain rfl := Except.ok.inj h
    have hparts : pythonDateParts value.naive.days = .ok value := pythonDateParts_number value
    rw [castKToPyInner, if_neg hnot, hparts]
    exact ⟨rfl, trivial⟩
  | time value =>
    rw [castLeaf] at h
    by_cases hdigits : value.naive.frac % 1000000 ≠ 0
    · rw [if_pos hdigits] at h
      cases h
    · rw [if_neg hdigits] at h
      obtain rfl := Except.ok.inj h
      rw [castKToPyInner, if_neg hnot, castKTime_eq_ok.mpr ⟨value, rfl, rfl⟩]
      exact ⟨rfl, trivial⟩
  | delta value =>
    rw [castLeaf] at h
    cases hnanos : value.duration.numNanoseconds with
    | none =>
      rw [hnanos] at h
      cases h
    | some nanoseconds =>
      rw [hnanos] at h
      obtain rfl := Except.ok.inj h
      rw [castKToPyInner, if_neg hnot, castKDuration_eq_ok.mpr ⟨by rw [hnanos]; rfl, value, rfl, rfl⟩]
      exact ⟨rfl, trivial⟩
  | other typeName => cases h
  | _ =>
    obtain rfl := Except.ok.inj h
    rw [castKToPyInner, if_neg hnot]
    exact ⟨rfl, trivial⟩

/-- Induction over an object, the values of its dictionaries and the members of its lists and tuples. -/
theorem Value.induct {motive : Value → Prop} (leaf : ∀ value, motive (.leaf value))
    (dict : ∀ entries, (∀ entry ∈ entries, motive entry.2) → motive (.dict entries))
    (list : ∀ items, (∀ item ∈ items, motive item) → motive (.list items))
    (tuple : ∀ items, (∀ item ∈ items, motive item) → motive (.tuple items)) : ∀ value, motive value := by
  intro value
  refine @Value.rec motive (fun entries => ∀ entry ∈ entries, motive entry.2) (fun items => ∀ item ∈ items, motive item)
    (fun entry => motive entry.2) leaf dict list tuple ?_ ?_ ?_ ?_ ?_ value
  · simp
  · intro head tail hhead htail
    exact List.forall_mem_cons.mpr ⟨hhead, htail⟩
  · simp
  · intro head tail hhead htail
    exact List.forall_mem_cons.mpr ⟨hhead, htail⟩
  · intro key value hvalue
    exact hvalue

theorem itemsSettled_iff {items : List Value} : ItemsSettled items ↔ ∀ item ∈ items, item.Settled := by
  induction items with
  | nil => simp [ItemsSettled]
  | cons item items ih => simp [ItemsSettled, ih]

theorem entriesSettled_iff {entries : List (Str × Value)} :
    EntriesSettled entries ↔ ∀ item ∈ entries.map Prod.snd, item.Settled := by
  induction entries with
  | nil => simp [EntriesSettled]
  | cons entry entries ih => rw [EntriesSettled, List.map_cons, List.forall_mem_cons, ih]

/-- An object goes to q and returns at a depth. -/
def Returns (bridge : Bridge) (value : Value) (depth : Nat) : Prop :=
  ∀ k, castValue value depth = .ok k → castKToPyInner bridge k depth = .ok value ∧ k.KeysDistinct

theorem items_return {items : List Value} {depth : Nat} (h : ∀ item ∈ items, Returns bridge item depth) {ks : List K}
    (hcast : castValues items depth = .ok ks) :
    castKItems bridge ks depth = .ok items ∧ K.AllKeysDistinct ks := by
  induction items generalizing ks with
  | nil =>
    cases hcast
    exact ⟨rfl, trivial⟩
  | cons item items ih =>
    obtain ⟨hitem, hitems⟩ := List.forall_mem_cons.mp h
    simp only [castValues, bind_eq_ok, Except.ok.injEq] at hcast
    obtain ⟨k, hk, rest, hrest, rfl⟩ := hcast
    obtain ⟨hreturn, hkeys⟩ := hitem k hk
    obtain ⟨hreturns, hall⟩ := ih hitems hrest
    rw [castKItems, hreturn, hreturns]
    exact ⟨rfl, hkeys, hall⟩

theorem unzip_entries {α : Type} (entries : List (Str × α)) :
    (entries.map Prod.fst).zip (entries.map Prod.snd) = entries := by
  rw [List.zip_map', List.map_id']

/-- Every object, by induction over it. -/
theorem returns (value : Value) : value.Settled → ∀ depth, Returns bridge value depth := by
  induction value using Value.induct with
  | leaf leaf =>
    intro hsettled depth k h
    by_cases hdeep : maxConversionDepth < depth
    · rw [castValue_deep _ hdeep] at h
      cases h
    · rw [castValue, if_neg hdeep] at h
      exact leaf_returns hsettled h (Nat.not_lt.mp hdeep)
  | list items _ =>
    intro hsettled
    cases hsettled
  | tuple items ih =>
    intro hsettled depth k h
    by_cases hdeep : maxConversionDepth < depth
    · rw [castValue_deep _ hdeep] at h
      cases h
    · rw [castValue, if_neg hdeep] at h
      obtain ⟨ks, hks, rfl⟩ := map_eq_ok.mp h
      have hall := itemsSettled_iff.mp hsettled
      obtain ⟨hreturn, hkeys⟩ := items_return (fun item hitem => ih item hitem (hall item hitem) (depth + 1)) hks
      rw [castKToPyInner, if_neg hdeep, hreturn]
      exact ⟨rfl, hkeys⟩
  | dict entries ih =>
    intro hsettled depth k h
    obtain ⟨hnodup, hvalues⟩ := hsettled
    by_cases hdeep : maxConversionDepth < depth
    · rw [castValue_deep _ hdeep] at h
      cases h
    · rw [castValue, if_neg hdeep, ← unzip_entries entries, castValueEntries_zip (by simp)] at h
      obtain ⟨found, hfound, rfl⟩ := map_eq_ok.mp h
      obtain ⟨ks, hks, rfl⟩ := map_eq_ok.mp hfound
      have hall := entriesSettled_iff.mp hvalues
      obtain ⟨hreturn, hkeys⟩ := items_return (fun item hitem => by
        obtain ⟨entry, hentry, rfl⟩ := List.mem_map.mp hitem
        exact ih entry hentry (hall _ hitem) (depth + 1)) hks
      have hlength := castValues_length hks
      rw [List.length_map] at hlength
      have hfirst : ((entries.map Prod.fst).zip ks).map Prod.fst = entries.map Prod.fst :=
        List.map_fst_zip (by rw [List.length_map, hlength])
      have hsecond : ((entries.map Prod.fst).zip ks).map Prod.snd = ks :=
        List.map_snd_zip (by rw [List.length_map, hlength])
      have hinsert : insertAll [] ((entries.map Prod.fst).zip ks) = (entries.map Prod.fst).zip ks := by
        rw [insertAll_distinct (by rw [hfirst]; exact hnodup), List.nil_append]
      rw [hinsert, castKToPyInner, if_neg hdeep, castKEntries_distinct (by rw [hfirst]; exact hnodup), hfirst, hsecond,
        hreturn]
      refine ⟨?_, ?_, ?_⟩
      · simp only [Except.map, bind, Except.bind, List.nil_append, unzip_entries]
      · rw [hfirst]
        exact hnodup
      · rw [K.entriesKeysDistinct_iff]
        intro entry hentry
        apply K.allKeysDistinct_iff.mp hkeys
        rw [← hsecond]
        exact List.mem_map_of_mem hentry

/-- **Python's own values return.** Of the objects that q's values come as, in tuples and
dictionaries, whatever `cast_to_k` accepts comes back from `cast_k_to_py` as the same objects, and
its value is one that stays as it is. -/
theorem python_values_return (bridge : Bridge) (value : Value) (hsettled : value.Settled) (k : K)
    (h : castValue value 0 = .ok k) :
    castKToPy bridge k = .ok value ∧ comesBack bridge k = some k ∧ k.height ≤ maxConversionDepth := by
  obtain ⟨hreturn, hkeys⟩ := @returns bridge value hsettled 0 k h
  have hback := (@trip bridge k hkeys 0 k).mp ⟨value, hreturn, h⟩
  rw [Nat.zero_add] at hback
  exact ⟨hreturn, hback⟩

/-- A leap day and the last millisecond of a day, in a dictionary. -/
theorem python_values_return_leap_day :
    let bridge : Bridge := ⟨fun series => .ok (.Series series), fun frame => .ok (.DataFrame frame)⟩
    let value : Value := .dict [(Str.ofText ['t'], .tuple [.leaf (.date ⟨⟨2000, 2, 29⟩, by decide, by decide⟩),
      .leaf (.time ⟨23, 59, 59, 999000, by decide⟩), .leaf .none])]
    ∃ k, castValue value 0 = .ok k ∧ castKToPy bridge k = .ok value := by
  intro bridge value
  have hsettled : value.Settled := ⟨by simp, ⟨trivial, trivial, trivial, trivial⟩, trivial⟩
  have hcast : ∃ k, castValue value 0 = .ok k := ⟨_, rfl⟩
  obtain ⟨k, hk⟩ := hcast
  exact ⟨k, hk, (python_values_return bridge value hsettled k hk).1⟩

end Xqdb.Python
