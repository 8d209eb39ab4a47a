import Xqdb.FixedLists

/-! Lists from the wire into a column and back onto the wire. Numbers and times keep their
count and, nulls and infinities apart, their elements; booleans, GUIDs and characters keep
every byte, and so do bytes unless there are none. -/

namespace Xqdb

open LittleEndian (encode)
open WireNumber (toLe fromLe)

/-! ## Numbers and times -/

/-- A minute or second as a time in milliseconds. -/
def resentClock (milliseconds : Int) (element : Bytes) : Bytes :=
  let value : Int32 := fromLe element
  if value = i32Min then element else toLe (Int32.ofInt (value.toInt * milliseconds))

/-- What an element of a list looks like when it is sent back. -/
def resent (kType : UInt8) (element : Bytes) : Bytes :=
  match kType.toNat with
  | 5 =>
    let value : Int16 := fromLe element
    if value.toInt = -2 ^ 15 + 1 ∨ value.toInt = 2 ^ 15 - 1 then toLe i16Min else element
  | 6 =>
    let value : Int32 := fromLe element
    if value.toInt = -2 ^ 31 + 1 ∨ value.toInt = 2 ^ 31 - 1 then toLe i32Min else element
  | 7 =>
    let value : Int64 := fromLe element
    if value.toInt = -2 ^ 63 + 1 ∨ value.toInt = 2 ^ 63 - 1 then toLe i64Min else element
  | 8 => if f32IsNan (fromLe element) then toLe f32Nan else element
  | 9 => if f64IsNan (fromLe element) then toLe f64Nan else element
  | 17 => resentClock 60000 element
  | 18 => resentClock 1000 element
  | _ => element

def resentType (kType : UInt8) : UInt8 := if kType = 17 ∨ kType = 18 then 19 else kType

/-- A value is written with its null in place: what the decoder dropped was the null, or is
lost to it. -/
theorem toLe_getD {α : Type} [WireNumber α] {kept lost : Prop} [Decidable kept] [Decidable lost]
    {value null : α} (hlost : lost → ¬ kept) (hnull : ¬ kept → lost ∨ value = null) :
    toLe ((if kept then some value else none).getD null) =
      if lost then toLe null else toLe value := by
  by_cases hkept : kept
  · rw [if_pos hkept, if_neg (fun h => hlost h hkept)]
    rfl
  rw [if_neg hkept]
  by_cases h : lost
  · rw [if_pos h]
    rfl
  · obtain hcontra | rfl := hnull hkept
    · exact absurd hcontra h
    · rw [if_neg h]
      rfl

/-- An element that was accepted goes out again as `resent` says and passes the checks. -/
def Resends (list : NumberList) : Prop :=
  flatKType list.column = resentType list.kType ∧
    ∀ value cell, list.decodeCell value = .ok cell →
      writeCell list.column cell = .ok (resent list.kType (toLe value)) ∧
        ∀ present ∈ cell, checkCell list.column present = .ok ()

/-- Integers: the infinities are lost to the null. -/
theorem toLe_getD_integer {α : Type} [WireNumber α] {toInt : α → Int} {half : Int} {value null : α}
    (hnull : toInt null = -half) (hlow : -half ≤ toInt value) (hhigh : toInt value < half)
    (hinj : toInt value = toInt null → value = null) :
    toLe ((if -half + 1 < toInt value && toInt value < half - 1 then some value else none).getD null) =
      if toInt value = -half + 1 ∨ toInt value = half - 1 then toLe null else toLe value := by
  apply toLe_getD
  · intro hlost
    simp only [Bool.and_eq_true, decide_eq_true_eq]
    omega
  · intro hdropped
    simp only [Bool.and_eq_true, decide_eq_true_eq] at hdropped
    by_cases hmin : toInt value = toInt null
    · exact .inr (hinj hmin)
    · exact .inl (by omega)

theorem resends_short : Resends .short := by
  refine ⟨rfl, ?_⟩
  intro value cell h
  cases h
  refine ⟨?_, fun _ _ => rfl⟩
  simp only [writeCell, resent, UInt8.reduceToNat, WireNumber.fromLe_toLe]
  exact congrArg Except.ok (toLe_getD_integer rfl value.le_toInt value.toInt_lt Int16.toInt_inj.mp)

theorem resends_int : Resends .int := by
  refine ⟨rfl, ?_⟩
  intro value cell h
  cases h
  refine ⟨?_, fun _ _ => rfl⟩
  simp only [writeCell, resent, UInt8.reduceToNat, WireNumber.fromLe_toLe]
  exact congrArg Except.ok (toLe_getD_integer rfl value.le_toInt value.toInt_lt Int32.toInt_inj.mp)

theorem resends_long : Resends .long := by
  refine ⟨rfl, ?_⟩
  intro value cell h
  cases h
  refine ⟨?_, fun _ _ => rfl⟩
  simp only [writeCell, resent, UInt8.reduceToNat, WireNumber.fromLe_toLe]
  exact congrArg Except.ok (toLe_getD_integer rfl value.le_toInt value.toInt_lt Int64.toInt_inj.mp)

theorem resends_real : Resends .real := by
  refine ⟨rfl, ?_⟩
  intro value cell h
  cases h
  refine ⟨?_, fun _ _ => rfl⟩
  simp only [writeCell, resent, UInt8.reduceToNat, WireNumber.fromLe_toLe]
  apply congrArg Except.ok
  apply toLe_getD
  · intro hlost
    simp [hlost]
  · intro hdropped
    exact .inl (by simpa using hdropped)

theorem resends_float : Resends .float := by
  refine ⟨rfl, ?_⟩
  intro value cell h
  cases h
  refine ⟨?_, fun _ _ => rfl⟩
  simp only [writeCell, resent, UInt8.reduceToNat, WireNumber.fromLe_toLe]
  apply congrArg Except.ok
  apply toLe_getD
  · intro hlost
    simp [hlost]
  · intro hdropped
    exact .inl (by simpa using hdropped)

theorem resends_timespan : Resends .timespan := by
  refine ⟨rfl, ?_⟩
  intro value cell h
  cases h
  by_cases hnull : value = i64Min
  · subst hnull
    exact ⟨rfl, by simp⟩
  have hone : checkedI64 (value.toInt * timeUnitNanos .nanoseconds) = some value :=
    checkedI64_eq_some.mpr (Int.mul_one _).symm
  have hcell : (if value != i64Min then some value else none) = some value := by simp [hnull]
  rw [hcell]
  constructor
  · simp only [writeCell, hone, Exec.okOr_some, Exec.ok_bind]
    rfl
  · rintro _ ⟨⟩
    simp [checkCell, checkDuration, hone]

theorem timestampValue_eq_ok {value unix : Int64} :
    timestampValue value = .ok unix ↔
      value = i64Min ∧ unix = i64Min ∨
      value ≠ i64Min ∧ finiteTimestamp value = some value ∧ unix.toInt = value.toInt + nanosDiff := by
  have hmin : i64Min.toInt = -2 ^ 63 := rfl
  have h₁ := value.le_toInt
  have h₂ := value.toInt_lt
  unfold timestampValue
  split
  · next hnull =>
    simp only [Except.ok.injEq, hnull, ne_eq, not_true_eq_false, false_and, or_false, true_and]
    exact eq_comm
  next hnull =>
  have hvalue : value.toInt ≠ -2 ^ 63 := by
    intro hc
    exact hnull (Int64.toInt_inj.mp (hc.trans hmin.symm))
  unfold unixTimestampNanoseconds finiteTimestamp
  split
  · next hinfinite =>
    have hout : ¬ (-2 ^ 63 + 1 < value.toInt ∧ value.toInt < 2 ^ 63 - 1) := by omega
    simp only [if_neg hout, deserializationErr, Exec.err_ne_ok, reduceCtorEq, false_and, and_false,
      hnull, or_self]
  · next hfinite =>
    have hin : -2 ^ 63 + 1 < value.toInt ∧ value.toInt < 2 ^ 63 - 1 := by omega
    simp only [Exec.okOr_eq_ok, checkedI64_eq_some, hnull, false_and, false_or, ne_eq,
      not_false_eq_true, true_and, if_pos hin]

theorem resends_timestamp : Resends .timestamp := by
  refine ⟨rfl, ?_⟩
  intro value cell h
  have hmin : i64Min.toInt = -2 ^ 63 := rfl
  have hdiff : nanosDiff = 946684800000000000 := rfl
  simp only [Exec.bind_eq_ok, Except.ok.injEq] at h
  obtain ⟨unix, hunix, rfl⟩ := h
  obtain ⟨rfl, rfl⟩ | ⟨hnull, hfinite, hsum⟩ := timestampValue_eq_ok.mp hunix
  · exact ⟨rfl, by simp⟩
  have h₁ := value.le_toInt
  have hpresent : unix ≠ i64Min := by
    intro hc
    rw [hc, hmin] at hsum
    omega
  have hcell : (if unix != i64Min then some unix else none) = some unix := by simp [hpresent]
  have hone : checkedI64 (unix.toInt * timeUnitNanos .nanoseconds) = some unix :=
    checkedI64_eq_some.mpr (Int.mul_one _).symm
  have hback : checkedI64 (unix.toInt - nanosDiff) = some value :=
    checkedI64_eq_some.mpr (by omega)
  rw [hcell]
  constructor
  · simp only [writeCell, hone, Exec.okOr_some, Exec.ok_bind, qTimestampNanoseconds, hback,
      Option.bind_some, hfinite]
    rfl
  · rintro _ ⟨⟩
    simp only [checkCell, checkTimestamp, qTimestampOf, hone, Option.bind_some, hback, hfinite,
      Exec.okOr_some, Exec.ok_bind]

theorem resends_date : Resends .date := by
  refine ⟨rfl, ?_⟩
  intro value cell h
  have hmin : i32Min.toInt = -2 ^ 31 := rfl
  simp only [Exec.bind_eq_ok, Except.ok.injEq] at h
  obtain ⟨days, hdays, rfl⟩ := h
  unfold dateValue at hdays
  split at hdays
  · next hnull =>
    cases hdays
    subst hnull
    exact ⟨rfl, by simp⟩
  rw [Exec.okOr_eq_ok, checkedI32_eq_some] at hdays
  have h₁ := value.le_toInt
  have hpresent : days ≠ i32Min := by
    intro hc
    rw [hc, hmin] at hdays
    omega
  have hcell : (if days != i32Min then some days else none) = some days := by simp [hpresent]
  have hback : checkedI32 (days.toInt - 10957) = some value := checkedI32_eq_some.mpr (by omega)
  rw [hcell]
  constructor
  · simp only [writeCell, hback, Exec.okOr_some, Exec.ok_bind]
    rfl
  · rintro _ ⟨⟩
    simp [checkCell, checkDate, hback]

/-- A time of day that was accepted is a whole number of milliseconds within the day. -/
theorem timeValue_eq_ok {multiplier : Int} {value : Int32} {nanoseconds : Int64}
    (hnull : value ≠ i32Min) :
    timeValue multiplier value = .ok nanoseconds ↔
      nanoseconds.toInt = value.toInt * multiplier ∧ 0 ≤ nanoseconds.toInt ∧
        nanoseconds.toInt < nanosPerDay := by
  rw [timeValue, if_neg hnull, Exec.okOr_eq_ok, Option.bind_eq_some_iff]
  constructor
  · rintro ⟨nanos, hnanos, h⟩
    rw [checkedI64_eq_some] at hnanos
    split at h
    · next hday =>
      cases h
      exact ⟨hnanos, hday⟩
    · cases h
  · rintro ⟨hnanos, hday⟩
    exact ⟨nanoseconds, checkedI64_eq_some.mpr hnanos, if_pos hday⟩

/-- The clock lists come back in milliseconds. -/
theorem resends_clock {kType : UInt8} {milliseconds : Int} (hkind : resentType kType = 19)
    (hresent : ∀ value : Int32, resent kType (toLe value) =
      if value = i32Min then toLe value else toLe (Int32.ofInt (value.toInt * milliseconds))) :
    Resends (.clock kType (milliseconds * 1000000)) := by
  refine ⟨hkind.symm, ?_⟩
  intro value cell h
  have hday : nanosPerDay = 86400000000000 := rfl
  simp only [Exec.bind_eq_ok, Except.ok.injEq] at h
  obtain ⟨nanoseconds, hnanos, rfl⟩ := h
  change writeCell .time _ = .ok (resent kType (toLe (value : Int32))) ∧ _
  rw [hresent]
  by_cases hnull : value = i32Min
  · rw [if_pos hnull, if_pos hnull, hnull]
    exact ⟨rfl, by simp⟩
  rw [if_neg hnull, if_neg hnull]
  obtain ⟨hvalue, hlow, hhigh⟩ := (timeValue_eq_ok hnull).mp hnanos
  have hwhole : nanoseconds.toInt = 1000000 * (value.toInt * milliseconds) := by
    rw [hvalue, ← Int.mul_assoc, Int.mul_comm]
  have hback : checkedI32 (nanoseconds.toInt.tdiv 1000000) =
      some (Int32.ofInt (value.toInt * milliseconds)) := by
    have htdiv : nanoseconds.toInt.tdiv 1000000 = value.toInt * milliseconds := by
      rw [Int.tdiv_eq_ediv_of_nonneg hlow]
      omega
    rw [htdiv, checkedI32, if_pos (by omega)]
  constructor
  · simp only [writeCell, hback, Exec.okOr_some, Exec.ok_bind]
  · rintro _ ⟨⟩
    simp only [checkCell, checkTime]
    rw [if_neg (by omega), if_neg (by omega)]

theorem resends_minute : Resends .minute := by
  apply @resends_clock 17 60000 rfl
  intro value
  simp only [resent, UInt8.reduceToNat, resentClock, WireNumber.fromLe_toLe]

theorem resends_second : Resends .second := by
  apply @resends_clock 18 1000 rfl
  intro value
  simp only [resent, UInt8.reduceToNat, resentClock, WireNumber.fromLe_toLe]

theorem resends_time : Resends .time := by
  apply @resends_clock 19 1 rfl
  intro value
  rw [Int.mul_one, Int32.ofInt_toInt, ite_self]
  rfl

/-- The rows of a column one after the other. -/
theorem writeEach_resent {list : NumberList} (hresends : Resends list) {values : List list.Element}
    {cells : List (Option list.column.Cell)}
    (hcells : List.Forall₂ (fun value cell => list.decodeCell value = .ok cell) values cells) :
    writeEach (writeCell list.column) cells =
      .ok ((values.map toLe).flatMap (resent list.kType)) := by
  induction hcells with
  | nil => rfl
  | cons hcell hcells ih =>
    rw [writeEach, (hresends.2 _ _ hcell).1, Exec.ok_bind, ih, Exec.ok_bind, List.map_cons,
      List.flatMap_cons]

/-- The values of a column pass the checks of the encoder. -/
theorem checkCell_resent {list : NumberList} (hresends : Resends list) {values : List list.Element}
    {cells : List (Option list.column.Cell)}
    (hcells : List.Forall₂ (fun value cell => list.decodeCell value = .ok cell) values cells)
    (present : list.column.Cell) (hpresent : some present ∈ cells) :
    checkCell list.column present = .ok () := by
  induction hcells with
  | nil => cases hpresent
  | cons hcell hcells ih =>
    cases hpresent with
    | head => exact (hresends.2 _ _ hcell).2 present rfl
    | tail _ hpresent => exact ih hpresent

section Lists

variable {categories : CategoricalMapping} {encoding : SymbolEncoding}

/-- One number list from the wire and back. -/
theorem serialize_resent {list : NumberList} (hlist : list.Supported) (hresends : Resends list)
    {rest : Bytes} {k : K} (hsize : (list.kType :: 0 :: rest).length ≤ usizeMax)
    (h : deserialize categories encoding (list.kType :: 0 :: rest) = .ok k) :
    ∃ count payload, count ≤ i32Max ∧ payload.length = count * typeSize list.kType ∧
      rest = encode 4 count ++ payload ∧
      k.serialize = .ok (resentType list.kType :: 0 :: (encode 4 count ++
        (chunksExact (typeSize list.kType) count payload).flatMap (resent list.kType))) := by
  obtain ⟨hkind, hzero, heleven, -⟩ := hlist.bounds
  obtain ⟨-, attr, count, payload, hcount, hlen, hrest, hvalue⟩ :=
    (deserialize_typed hkind hzero heleven hsize).mp h
  obtain ⟨-, rfl⟩ := List.cons.inj hrest
  refine ⟨count, payload, hcount, hlen, rfl, ?_⟩
  have hwidth : flatWidth list.column = some (WireNumber.width list.Element) := by
    cases hlist <;> rfl
  obtain ⟨values, rfl, rfl⟩ := exists_numbers list.Element (hlen.trans (by rw [hlist.width]))
  rw [hlist.typedList] at hvalue
  simp only [Exec.bind_eq_ok, Except.ok.injEq] at hvalue
  obtain ⟨cells, hcells, rfl⟩ := hvalue
  rw [tryCollect_eq_ok] at hcells
  have hsame : cells.length = values.length := hcells.length_eq.symm
  rw [NumberList.series, serialize_cells hwidth (hsame ▸ hcount) (checkCell_resent hresends hcells)
    (writeEach_resent hresends hcells), hlist.width, chunksExact_write, hsame, hresends.1]
  rfl

/-- **Numbers and times come back.** An accepted list of numbers or times is sent back with
its count and its elements in order, each as `resent` says: infinite integers are null,
not-a-numbers are one, minutes and seconds are times. -/
theorem numbers_come_back (categories : CategoricalMapping) (encoding : SymbolEncoding) (kType : UInt8)
    (hkind : kType ∈ [5, 6, 7, 8, 9, 12, 14, 16, 17, 18, 19]) (rest : Bytes) (k : K)
    (hsize : (kType :: 0 :: rest).length ≤ usizeMax)
    (h : deserialize categories encoding (kType :: 0 :: rest) = .ok k) :
    ∃ count payload, count ≤ i32Max ∧ payload.length = count * typeSize kType ∧
      rest = encode 4 count ++ payload ∧
      k.serialize = .ok (resentType kType :: 0 :: (encode 4 count ++
        (chunksExact (typeSize kType) count payload).flatMap (resent kType))) := by
  simp only [List.mem_cons, List.not_mem_nil, or_false] at hkind
  obtain rfl | rfl | rfl | rfl | rfl | rfl | rfl | rfl | rfl | rfl | rfl := hkind
  · exact serialize_resent .short resends_short hsize h
  · exact serialize_resent .int resends_int hsize h
  · exact serialize_resent .long resends_long hsize h
  · exact serialize_resent .real resends_real hsize h
  · exact serialize_resent .float resends_float hsize h
  · exact serialize_resent .timestamp resends_timestamp hsize h
  · exact serialize_resent .date resends_date hsize h
  · exact serialize_resent .timespan resends_timespan hsize h
  · exact serialize_resent .minute resends_minute hsize h
  · exact serialize_resent .second resends_second hsize h
  · exact serialize_resent .time resends_time hsize h

/-- One minute and no minute. -/
theorem numbers_come_back_minutes :
    ∃ k, deserialize numberedTexts .Strict [17, 0, 2, 0, 0, 0, 1, 0, 0, 0, 0, 0, 0, 128] = .ok k ∧
      ∃ count payload, count ≤ i32Max ∧ payload.length = count * typeSize 17 ∧
        [2, 0, 0, 0, 1, 0, 0, 0, 0, 0, 0, 128] = encode 4 count ++ payload ∧
        k.serialize = .ok (resentType 17 :: 0 :: (encode 4 count ++
          (chunksExact (typeSize 17) count payload).flatMap (resent 17))) :=
  ⟨_, rfl, numbers_come_back numberedTexts .Strict 17 (by decide) _ _ (by decide) rfl⟩

/-! ## Booleans, GUIDs, bytes and characters -/

theorem writeEach_cells_map {α : Type} {type : FlatType} {cell : α → Option type.Cell}
    {bytes : α → Bytes} {items : List α}
    (h : ∀ item ∈ items, writeCell type (cell item) = .ok (bytes item)) :
    writeEach (writeCell type) (items.map cell) = .ok (items.flatMap bytes) := by
  induction items with
  | nil => rfl
  | cons item items ih =>
    rw [List.map_cons, writeEach, h item (by simp), Exec.ok_bind,
      ih fun other hother => h other (by simp [hother]), Exec.ok_bind, List.flatMap_cons]

theorem chunksExact_flatten {width count : Nat} {payload : Bytes} (h : payload.length = count * width) :
    (chunksExact width count payload).flatten = payload := by
  induction count generalizing payload with
  | zero =>
    obtain rfl := List.length_eq_zero_iff.mp (h.trans (Nat.zero_mul _))
    rfl
  | succ count ih =>
    rw [Nat.add_one_mul] at h
    rw [chunksExact, List.flatten_cons, ih (by simp; omega), List.take_append_drop]

theorem chunksExact_mem {width count : Nat} {payload chunk : Bytes}
    (h : payload.length = count * width) (hchunk : chunk ∈ chunksExact width count payload) :
    chunk.length = width := by
  induction count generalizing payload with
  | zero => cases hchunk
  | succ count ih =>
    rw [Nat.add_one_mul] at h
    cases hchunk with
    | head =>
      rw [List.length_take]
      omega
    | tail _ hchunk => exact ih (by simp; omega) hchunk

theorem chunksExact_length (width count : Nat) (payload : Bytes) :
    (chunksExact width count payload).length = count := by
  induction count generalizing payload with
  | zero => rfl
  | succ count ih => rw [chunksExact, List.length_cons, ih]

theorem validateBooleans_eq_ok {values : Bytes} {context : String} {u : Unit} :
    validateBooleans values context = .ok u ↔ ∀ value ∈ values, value ≤ 1 := by
  unfold validateBooleans
  cases hfind : values.find? (1 < ·) with
  | none =>
    simp only [true_iff]
    intro value hvalue
    have hsmall := List.find?_eq_none.mp hfind value hvalue
    simpa using hsmall
  | some value =>
    have hlarge := List.find?_some hfind
    have hmem := List.mem_of_find?_eq_some hfind
    simp only [deserializationErr, Exec.err_ne_ok, false_iff]
    intro hall
    have hsmall := hall value hmem
    simp only [decide_eq_true_eq] at hlarge
    exact absurd hsmall (UInt8.not_le.mpr hlarge)

theorem booleans_come_back {count : Nat} {payload : Bytes} {k : K} (hcount : count ≤ i32Max)
    (hlen : payload.length = count) (h : typedList categories 1 count payload = .ok k) :
    k.serialize = .ok (seriesHeader 1 count ++ payload) := by
  subst hlen
  have hfixed : typedList categories 1 payload.length payload = decodeFixedList 1 payload := by
    rw [typedList, if_neg (by decide)]
    split
    · next hnone =>
      obtain rfl := List.length_eq_zero_iff.mp hnone
      rfl
    · rfl
  rw [hfixed] at h
  change (validateBooleans payload _ >>= fun _ => _) = _ at h
  rw [Exec.bind_eq_ok] at h
  obtain ⟨_, hbits, h⟩ := h
  cases h
  rw [validateBooleans_eq_ok] at hbits
  have hpayload : writeEach (writeCell .boolean) (payload.map fun value => some (value == 1)) =
      .ok payload := by
    have heach := @writeEach_cells_map _ .boolean (fun value => some (value == 1)) (fun value => [value])
      payload
    rw [heach, List.flatMap_singleton']
    intro value hvalue
    have hbit : value.toNat = 0 ∨ value.toNat = 1 := by
      have hle := UInt8.le_iff_toNat_le.mp (hbits value hvalue)
      simp only [UInt8.reduceToNat] at hle
      omega
    obtain hzero | hone := hbit
    · obtain rfl : value = 0 := UInt8.toNat_inj.mp hzero
      rfl
    · obtain rfl : value = 1 := UInt8.toNat_inj.mp hone
      rfl
  rw [serialize_cells rfl (by simpa using hcount) (fun _ _ => rfl) hpayload, List.length_map]
  rfl

theorem guids_come_back {count : Nat} {payload : Bytes} {k : K} (hcount : count ≤ i32Max)
    (hlen : payload.length = count * 16) (h : typedList categories 2 count payload = .ok k) :
    k.serialize = .ok (seriesHeader 2 count ++ payload) := by
  have hdiv : payload.length / 16 = count := by omega
  have hfixed : typedList categories 2 count payload =
      .ok (.Series (.ofCells (typeName 2) .binary ((chunksExact 16 count payload).map some))) := by
    rw [typedList, if_neg (by decide)]
    split
    · next hnone =>
      subst hnone
      rfl
    · rw [← hdiv]
      rfl
  rw [hfixed] at h
  cases h
  have hpayload : writeEach (writeCell .binary) ((chunksExact 16 count payload).map some) =
      .ok payload := by
    rw [@writeEach_cells_map _ .binary some id _ fun _ _ => rfl, List.flatMap_id,
      chunksExact_flatten hlen]
  rw [serialize_cells rfl (by rw [List.length_map, chunksExact_length]; exact hcount) ?_ hpayload,
    List.length_map, chunksExact_length]
  · rfl
  · intro value hvalue
    have hmem : value ∈ chunksExact 16 count payload := by simpa using hvalue
    exact validateGuidSeries_eq_ok.mpr fun other hother => by
      obtain rfl : other = value := by simpa [presentCells] using hother
      exact chunksExact_mem hlen hmem

theorem octets_come_back {count : Nat} {payload : Bytes} {k : K} (hcount : count ≤ i32Max)
    (hlen : payload.length = count) (h : typedList categories 4 count payload = .ok k) :
    k.serialize = .ok (seriesHeader 4 count ++ payload) ↔ count ≠ 0 := by
  subst hlen
  rw [typedList, if_neg (by decide)] at h
  split at h
  · next hnone =>
    obtain rfl := List.length_eq_zero_iff.mp hnone
    cases h
    have hsent : (K.Series (.ofCells (typeName 4) .string [])).serialize = .ok [0, 0, 0, 0, 0, 0] := rfl
    rw [hsent]
    exact iff_of_false (by simp [seriesHeader]) (by simp)
  next hsome =>
  cases h
  have hpayload : writeEach (writeCell .uint8) (payload.map some) = .ok payload := by
    rw [@writeEach_cells_map _ .uint8 some (fun value => [value]) payload fun _ _ => rfl,
      List.flatMap_singleton']
  rw [serialize_cells rfl (by simpa using hcount) (fun _ _ => rfl) hpayload, List.length_map]
  exact iff_of_true rfl hsome

theorem characters_come_back {count : Nat} {payload : Bytes} {k : K} (hcount : count ≤ i32Max)
    (hlen : payload.length = count) (h : typedList categories 10 count payload = .ok k) :
    k.serialize = .ok (seriesHeader 10 count ++ payload) := by
  have hi32 : i32Max = 2 ^ 31 - 1 := rfl
  have husize : usizeMax = 2 ^ 64 - 1 := rfl
  have hisize : isizeMax = 2 ^ 63 - 1 := rfl
  subst hlen
  rw [typedList, if_pos rfl] at h
  cases h
  have hleaf : (K.CharVector payload).IsLeaf := trivial
  rw [K.serialize_eq_ok]
  constructor
  · refine ⟨payload.length + 6, ?_, by omega⟩
    rw [K.j6Len, K.j6LenWithDepth_leaf hleaf, if_neg (by decide), K.leafLen, textLen, checkedQCount,
      if_pos hcount, Exec.ok_bind, Exec.okOr_eq_ok, checkedAdd_eq_some]
    exact ⟨rfl, by omega⟩
  · rw [K.appended_leaf hleaf, K.appendedLeaf, charVector, qListLength, if_pos hcount, Exec.ok_bind]
    rfl

/-- **Byte-sized lists come back as they were**, the list of no bytes apart: that one is read
as a column of texts and goes out as a general list. -/
theorem octets_unchanged (categories : CategoricalMapping) (encoding : SymbolEncoding) (kType : UInt8)
    (hkind : kType ∈ [1, 2, 4, 10]) (rest : Bytes) (k : K)
    (hsize : (kType :: 0 :: rest).length ≤ usizeMax)
    (h : deserialize categories encoding (kType :: 0 :: rest) = .ok k) :
    k.serialize = .ok (kType :: 0 :: rest) ↔ ¬ (kType = 4 ∧ rest = encode 4 0) := by
  have hbounds : kType ≤ 19 ∧ kType ≠ 0 ∧ kType ≠ 11 := by
    simp only [List.mem_cons, List.not_mem_nil, or_false] at hkind
    obtain rfl | rfl | rfl | rfl := hkind <;> decide
  obtain ⟨-, attr, count, payload, hcount, hlen, hrest, hvalue⟩ :=
    (deserialize_typed hbounds.1 hbounds.2.1 hbounds.2.2 hsize).mp h
  obtain ⟨-, rfl⟩ := List.cons.inj hrest
  simp only [List.mem_cons, List.not_mem_nil, or_false] at hkind
  obtain rfl | rfl | rfl | rfl := hkind
  · exact iff_of_true (booleans_come_back hcount (hlen.trans (Nat.mul_one _)) hvalue) (by simp)
  · exact iff_of_true (guids_come_back hcount hlen hvalue) (by simp)
  · have hsame : payload.length = count := hlen.trans (Nat.mul_one _)
    refine (octets_come_back hcount hsame hvalue).trans (not_congr ?_)
    constructor
    · rintro rfl
      obtain rfl := List.length_eq_zero_iff.mp hsame
      exact ⟨rfl, by simp⟩
    · rintro ⟨-, hnone⟩
      have hshort := congrArg List.length hnone
      simp only [List.length_append, LittleEndian.encode_length] at hshort
      omega
  · exact iff_of_true (characters_come_back hcount (hlen.trans (Nat.mul_one _)) hvalue) (by simp)

theorem octets_unchanged_two :
    ∃ k, deserialize numberedTexts .Strict [4, 0, 2, 0, 0, 0, 7, 255] = .ok k ∧
      (k.serialize = .ok [4, 0, 2, 0, 0, 0, 7, 255] ↔
        ¬ ((4 : UInt8) = 4 ∧ [2, 0, 0, 0, 7, 255] = encode 4 0)) :=
  ⟨_, rfl, octets_unchanged numberedTexts .Strict 4 (by decide) _ _ (by decide) rfl⟩

/-- No bytes come back as an empty general list. -/
theorem no_octets_retyped :
    ∃ k, deserialize numberedTexts .Strict [4, 0, 0, 0, 0, 0] = .ok k ∧
      k.serialize = .ok [0, 0, 0, 0, 0, 0] ∧ k.serialize ≠ .ok [4, 0, 0, 0, 0, 0] :=
  ⟨_, rfl, rfl, by
    intro h
    cases h⟩

end Lists

end Xqdb
