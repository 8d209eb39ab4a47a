import Xqdb.NormalForm
import Xqdb.SymbolLists
import Xqdb.WireNative

/-! The values of a dictionary as q packs them: atoms of one type become a typed list, which
the decoder reads as a column, and anything else is a general list, which it reads value by
value. Elements that are neither null nor infinite come out the same. -/

namespace Xqdb

open LittleEndian (encode)
open WireNumber (toLe fromLe)
open QValue (symbolBytes)

/-! ## The two bodies -/

/-- The types that have both atoms and lists. -/
def packedTypes : List UInt8 := [1, 2, 4, 5, 6, 7, 8, 9, 10, 11, 12, 14, 15, 16, 17, 18, 19]

/-- The type byte of an atom is the negative of its list's. -/
def atomType (kType : UInt8) : UInt8 := 0 - kType

/-- The octets of one element: a fixed number, or a text and its NUL. -/
def IsElement (kType : UInt8) (element : Bytes) : Prop :=
  if kType = 11 then ∃ text, 0 ∉ text ∧ element = text ++ [0]
  else element.length = typeSize kType

def typedValues (kType attr : UInt8) (elements : List Bytes) : Bytes :=
  kType :: attr :: (encode 4 elements.length ++ elements.flatten)

def atomValues (kType attr : UInt8) (elements : List Bytes) : Bytes :=
  0 :: attr :: (encode 4 elements.length ++ elements.flatMap fun element => atomType kType :: element)

def dictionaryBody (keyAttr : UInt8) (keys : List Bytes) (values : Bytes) : Bytes :=
  99 :: 11 :: keyAttr :: (encode 4 keys.length ++ (symbolBytes keys ++ values))

/-! ## One atom -/

section Atoms

variable {vec rest : Bytes} {pos : Nat} {k : K} {stop : Nat}

theorem numberAtom_eq_ok {α : Type} [WireNumber α] {context : String} {convert : α → Exec K}
    (h : At vec pos rest) :
    numberAtom α vec pos context convert = .ok (k, stop) ↔
      ∃ bytes rest', bytes.length = WireNumber.width α ∧ rest = bytes ++ rest' ∧
        convert (fromLe bytes) = .ok k ∧ stop = pos + bytes.length := by
  simp only [numberAtom, takeNumber, Exec.bind_eq_ok, Prod.exists, takeBytes_eq_ok h, Except.ok.injEq,
    Prod.mk.injEq]
  constructor
  · rintro ⟨_, _, ⟨bytes, _, ⟨hlen, rest', rfl, rfl⟩, rfl, rfl⟩, _, hk, rfl, rfl⟩
    exact ⟨bytes, rest', hlen, rfl, hk, by rw [hlen]⟩
  · rintro ⟨bytes, rest', hlen, rfl, hk, rfl⟩
    exact ⟨_, _, ⟨bytes, _, ⟨hlen, rest', rfl, by rw [hlen]⟩, rfl, rfl⟩, k, hk, rfl, rfl⟩

theorem byteAtom_eq_ok {context : String} {convert : UInt8 → Exec K} (h : At vec pos rest) :
    byteAtom vec pos context convert = .ok (k, stop) ↔
      ∃ byte rest', rest = byte :: rest' ∧ convert byte = .ok k ∧ stop = pos + 1 := by
  simp only [byteAtom, takeByteAt, Exec.bind_eq_ok, Prod.exists, takeBytes_eq_ok h, Except.ok.injEq,
    Prod.mk.injEq]
  constructor
  · rintro ⟨_, _, ⟨bytes, _, ⟨hlen, rest', rfl, rfl⟩, byte, hbyte, rfl, rfl⟩, _, hk, rfl, rfl⟩
    obtain ⟨first, rfl⟩ := List.length_eq_one_iff.mp hlen
    cases hbyte
    exact ⟨byte, rest', rfl, hk, rfl⟩
  · rintro ⟨byte, rest', rfl, hk, rfl⟩
    exact ⟨_, _, ⟨[byte], _, ⟨rfl, rest', rfl, rfl⟩, byte, rfl, rfl, rfl⟩, k, hk, rfl, rfl⟩

theorem takeUtf8UntilNul_eq_ok {encoding : SymbolEncoding} {context : String} {name : Str}
    (h : At vec pos rest) :
    takeUtf8UntilNul vec pos encoding context = .ok (name, stop) ↔
      ∃ text rest', 0 ∉ text ∧ rest = text ++ 0 :: rest' ∧
        decodeUtf8 text encoding context = .ok name ∧ stop = pos + text.length + 1 := by
  simp only [takeUtf8UntilNul, Exec.bind_eq_ok, Prod.exists, takeUntilNul_eq_ok h, Except.ok.injEq,
    Prod.mk.injEq]
  constructor
  · rintro ⟨text, _, ⟨hclean, rest', rfl, rfl⟩, _, hname, rfl, rfl⟩
    exact ⟨text, rest', hclean, rfl, hname, rfl⟩
  · rintro ⟨text, rest', hclean, rfl, hname, rfl⟩
    exact ⟨text, _, ⟨hclean, rest', rfl, rfl⟩, name, hname, rfl, rfl⟩

/-- An atom made from a number of as many octets as its list's elements have. -/
theorem numberAtom_element {α : Type} [WireNumber α] {context : String} {convert : α → Exec K}
    {element : Bytes} (hlen : element.length = WireNumber.width α) (h : At vec pos (element ++ rest))
    (hok : numberAtom α vec pos context convert = .ok (k, stop)) :
    convert (fromLe element) = .ok k ∧ stop = pos + element.length := by
  obtain ⟨bytes, rest', hbytes, heq, hk, rfl⟩ := (numberAtom_eq_ok h).mp hok
  obtain ⟨rfl, -⟩ := List.append_inj heq (hlen.trans hbytes.symm)
  exact ⟨hk, rfl⟩

theorem byteAtom_element {context : String} {convert : UInt8 → Exec K} {byte : UInt8}
    (h : At vec pos (byte :: rest)) (hok : byteAtom vec pos context convert = .ok (k, stop)) :
    convert byte = .ok k ∧ stop = pos + 1 := by
  obtain ⟨_, _, heq, hk, rfl⟩ := (byteAtom_eq_ok h).mp hok
  cases heq
  exact ⟨hk, rfl⟩

end Atoms

/-! ## Both readings of one list of elements -/

/-- Atom by atom, the decoder gives these values for these elements. -/
def AtomItems (encoding : SymbolEncoding) (kType : UInt8) (elements : List Bytes) (items : List K) : Prop :=
  List.Forall₂ (fun element item => ∃ (vec rest : Bytes) (pos stop : Nat), At vec pos (element ++ rest) ∧
    deserializeAtom vec pos (atomType kType) encoding = .ok (item, stop)) elements items

/-- Two readings that agree on each element agree on the list. -/
theorem items_agree {α : Type} {Listed Read : α → K → Prop} {elements : List α} {items items' : List K}
    (hlisted : List.Forall₂ Listed elements items) (hread : List.Forall₂ Read elements items')
    (hsame : ∀ element ∈ elements, ∀ item item', Listed element item → Read element item' → item = item') :
    items = items' := by
  induction hlisted generalizing items' with
  | nil =>
    cases hread
    rfl
  | cons hhead _ ih =>
    cases hread with
    | cons hhead' hrest =>
      rw [hsame _ (by simp) _ _ hhead hhead', ih hrest fun element hmem => hsame element (by simp [hmem])]

theorem forall₂_trans {α β γ : Type} {R : α → β → Prop} {S : β → γ → Prop} {xs : List α} {ys : List β}
    {zs : List γ} (h : List.Forall₂ R xs ys) (h' : List.Forall₂ S ys zs) :
    List.Forall₂ (fun x z => ∃ y, R x y ∧ S y z) xs zs := by
  induction h generalizing zs with
  | nil =>
    cases h'
    exact .nil
  | cons hhead _ ih =>
    cases h' with
    | cons hhead' hrest => exact .cons ⟨_, hhead, hhead'⟩ (ih hrest)

section Numbers

/-- The atom that belongs to a number list: where both succeed on a finite element, the cell
of the list and the atom are one value. -/
def Packs (list : NumberList) : Prop :=
  ∃ (context : String) (atom : list.Element → Exec K),
    (∀ vec pos encoding, deserializeAtom vec pos (atomType list.kType) encoding =
      numberAtom list.Element vec pos context atom) ∧
    ∀ value, IsFinite list.kType (toLe value) → ∀ cell item item', list.decodeCell value = .ok cell →
      K.tryFromCell list.column cell = .ok item → atom value = .ok item' → item = item'

/-- Atoms that cannot fail, against the cells of finite elements. -/
theorem packs_of_cells {list : NumberList} (context : String) (atom : list.Element → K)
    (hread : ∀ vec pos encoding, deserializeAtom vec pos (atomType list.kType) encoding =
      numberAtom list.Element vec pos context fun value => .ok (atom value))
    (hcell : ∀ value, IsFinite list.kType (toLe value) → ∃ cell, list.decodeCell value = .ok cell ∧
      K.tryFromCell list.column cell = .ok (atom value)) : Packs list := by
  refine ⟨context, fun value => .ok (atom value), hread, ?_⟩
  intro value hfinite cell item item' hdecoded hitem hatom
  obtain ⟨cell', hdecoded', hitem'⟩ := hcell value hfinite
  obtain rfl : cell' = cell := Except.ok.inj (hdecoded'.symm.trans hdecoded)
  rw [Except.ok.inj (hitem.symm.trans hitem'), Except.ok.inj hatom]

theorem packs_short : Packs .short := by
  refine packs_of_cells "q short atom" .I16 (fun _ _ _ => rfl) fun value hfinite => ⟨some value, ?_, rfl⟩
  have hrange : -2 ^ 15 + 1 < value.toInt ∧ value.toInt < 2 ^ 15 - 1 := by
    simpa [IsFinite, WireNumber.fromLe_toLe] using hfinite
  simp only [hrange, decide_true, Bool.and_self, if_true]

theorem packs_int : Packs .int := by
  refine packs_of_cells "q int atom" .I32 (fun _ _ _ => rfl) fun value hfinite => ⟨some value, ?_, rfl⟩
  have hrange : -2 ^ 31 + 1 < value.toInt ∧ value.toInt < 2 ^ 31 - 1 := by
    simpa [IsFinite, WireNumber.fromLe_toLe] using hfinite
  simp only [hrange, decide_true, Bool.and_self, if_true]

theorem packs_long : Packs .long := by
  refine packs_of_cells "q long atom" .I64 (fun _ _ _ => rfl) fun value hfinite => ⟨some value, ?_, rfl⟩
  have hrange : -2 ^ 63 + 1 < value.toInt ∧ value.toInt < 2 ^ 63 - 1 := by
    simpa [IsFinite, WireNumber.fromLe_toLe] using hfinite
  simp only [hrange, decide_true, Bool.and_self, if_true]

theorem packs_real : Packs .real := by
  refine packs_of_cells "q real atom" .F32 (fun _ _ _ => rfl) fun bits hfinite => ⟨some bits, ?_, rfl⟩
  have hnumber : (!f32IsNan bits) = true := by
    simp [IsFinite, WireNumber.fromLe_toLe, f32IsFinite] at hfinite
    simp [f32IsNan]
    omega
  simp only [hnumber, if_true]

theorem packs_float : Packs .float := by
  refine packs_of_cells "q float atom" .F64 (fun _ _ _ => rfl) fun bits hfinite => ⟨some bits, ?_, rfl⟩
  have hnumber : (!f64IsNan bits) = true := by
    simp [IsFinite, WireNumber.fromLe_toLe, f64IsFinite] at hfinite
    simp [f64IsNan]
    omega
  simp only [hnumber, if_true]

theorem packs_timespan : Packs .timespan := by
  refine packs_of_cells "q timespan atom" (fun value => .Duration (Duration.ofNanoseconds value)) (fun _ _ _ => rfl)
    fun value hfinite => ⟨some value, ?_, ?_⟩
  · have hrange : -2 ^ 63 + 1 < value.toInt ∧ value.toInt < 2 ^ 63 - 1 := by
      simpa [IsFinite, WireNumber.fromLe_toLe] using hfinite
    have hpresent : (value != i64Min) = true := by
      rw [bne_iff_ne]
      rintro rfl
      exact absurd hrange.1 (by decide)
    simp only [hpresent, if_true]
  · have hback : checkedI64 (value.toInt * multiplier .nanoseconds) = some value :=
      checkedI64_eq_some.mpr (Int.mul_one _).symm
    simp only [K.tryFromCell, hback, Exec.okOr_some, Exec.ok_bind]

/-- A cell of nanoseconds since 1970 as a value of its own. -/
theorem tryFromCell_nanoseconds (value : Int64) :
    K.tryFromCell (.datetime .nanoseconds) (some value) =
      .ok (.DateTime (DateTime.fromTimestampNanos value)) := by
  have hback : checkedI64 (value.toInt * multiplier .nanoseconds) = some value :=
    checkedI64_eq_some.mpr (Int.mul_one _).symm
  simp only [K.tryFromCell, hback, Exec.okOr_some, Exec.ok_bind]

theorem packs_timestamp : Packs .timestamp := by
  refine ⟨"q timestamp atom", timestampAtom, fun _ _ _ => rfl, ?_⟩
  intro value hfinite cell item item' hcell hitem hatom
  have hmin : i64Min.toInt = -2 ^ 63 := rfl
  have hdiff : nanosDiff = 946684800000000000 := rfl
  have hrange : -2 ^ 63 + 1 < value.toInt ∧ value.toInt < 2 ^ 63 - 1 := by
    simpa [IsFinite, WireNumber.fromLe_toLe] using hfinite
  have hnull : value ≠ i64Min := by
    rintro rfl
    omega
  simp only [Exec.bind_eq_ok, Except.ok.injEq, timestampValue, if_neg hnull] at hcell
  obtain ⟨unix, hunix, rfl⟩ := hcell
  have hsum := hunix
  rw [unixTimestampNanoseconds, if_neg (by omega), Exec.okOr_eq_ok, checkedI64_eq_some] at hsum
  have hpresent : (unix != i64Min) = true := by
    rw [bne_iff_ne]
    rintro rfl
    omega
  simp only [timestampAtom, if_neg hnull, hunix, Exec.ok_bind, Except.ok.injEq] at hatom
  rw [if_pos hpresent] at hitem
  have hvalue := (tryFromCell_nanoseconds unix).symm.trans hitem
  rw [Except.ok.injEq] at hvalue
  rw [← hvalue, ← hatom]

theorem packs_date : Packs .date := by
  refine ⟨"q date atom", dateAtom, fun _ _ _ => rfl, ?_⟩
  intro value hfinite cell item item' hcell hitem hatom
  have hmin : i32Min.toInt = -2 ^ 31 := rfl
  have hrange : -2 ^ 31 + 1 < value.toInt ∧ value.toInt < 2 ^ 31 - 1 := by
    simpa [IsFinite, WireNumber.fromLe_toLe] using hfinite
  have hnull : value ≠ i32Min := by
    rintro rfl
    omega
  simp only [Exec.bind_eq_ok, Except.ok.injEq, dateValue, if_neg hnull, Exec.okOr_eq_ok,
    checkedI32_eq_some] at hcell
  obtain ⟨days, hdays, rfl⟩ := hcell
  have hpresent : (days != i32Min) = true := by
    rw [bne_iff_ne]
    rintro rfl
    omega
  -- 10957 days from 1970 and 719163 more from the first day of year 1
  have hsame : days.toInt + 719163 = value.toInt + 730120 := by omega
  simp only [if_pos hpresent, K.tryFromCell, hsame, Exec.bind_eq_ok, Exec.okOr_eq_ok,
    Option.bind_eq_some_iff, Except.ok.injEq] at hitem
  simp only [dateAtom, Exec.bind_eq_ok, Exec.okOr_eq_ok, Except.ok.injEq] at hatom
  obtain ⟨date, ⟨number, hnumber, hdate⟩, rfl⟩ := hitem
  obtain ⟨number', hnumber', date', hdate', rfl⟩ := hatom
  rw [hnumber] at hnumber'
  cases hnumber'
  rw [hdate] at hdate'
  cases hdate'
  rfl

theorem packs_datetime : Packs .datetime := by
  refine ⟨"q datetime atom", datetimeAtom, fun _ _ _ => rfl, ?_⟩
  intro bits hfinite cell item item' hcell hitem hatom
  have hmin : i64Min.toInt = -2 ^ 63 := rfl
  have hdiff : nanosDiff = 946684800000000000 := rfl
  have hnumber : f64IsFinite bits = true := by
    simpa [IsFinite, WireNumber.fromLe_toLe] using hfinite
  have hnan : ¬ f64IsNan bits = true := by
    simp only [f64IsFinite, f64IsNan, decide_eq_true_eq] at hnumber ⊢
    omega
  simp only [Exec.bind_eq_ok, Except.ok.injEq, datetimeValue, if_neg hnan,
    if_neg (not_not.mpr hnumber)] at hcell
  obtain ⟨nanoseconds, hnanos, rfl⟩ := hcell
  have hpresent : (nanoseconds != i64Min) = true := by
    rw [bne_iff_ne]
    rintro rfl
    simp only [qDatetimeNanoseconds, Exec.bind_eq_ok, Exec.okOr_eq_ok, Option.bind_eq_some_iff,
      checkedI64_eq_some] at hnanos
    obtain ⟨_, _, whole, -, hsum⟩ := hnanos
    have hlow := whole.le_toInt
    omega
  simp only [datetimeAtom, if_neg hnan, if_neg (not_not.mpr hnumber), hnanos, Exec.ok_bind,
    Except.ok.injEq] at hatom
  rw [if_pos hpresent] at hitem
  have hvalue := (tryFromCell_nanoseconds nanoseconds).symm.trans hitem
  rw [Except.ok.injEq] at hvalue
  rw [← hvalue, ← hatom]

/-- The clocks differ in their unit only. -/
theorem packs_clock {kType : UInt8} {unit : Int}
    (hfinite : ∀ element, IsFinite kType element → (fromLe element : Int32) ≠ i32Min)
    (hread : ∀ vec pos encoding, deserializeAtom vec pos (atomType kType) encoding =
      numberAtom Int32 vec pos "q time atom" (timeAtom (atomType kType) unit)) :
    Packs (.clock kType unit) := by
  refine ⟨"q time atom", timeAtom (atomType kType) unit, hread, ?_⟩
  intro value hvalue cell item item' hcell hitem hatom
  have hday : nanosPerDay = 86400000000000 := rfl
  have hnull : (value : Int32) ≠ i32Min := by
    have hne := hfinite _ hvalue
    rwa [WireNumber.fromLe_toLe] at hne
  simp only [Exec.bind_eq_ok, Except.ok.injEq, if_neg hnull] at hcell
  obtain ⟨nanoseconds, hnanos, rfl⟩ := hcell
  obtain ⟨hproduct, hlow, hhigh⟩ := (timeValue_eq_ok hnull).mp hnanos
  have hchecked : checkedI64 (Int32.toInt value * unit) = some nanoseconds :=
    checkedI64_eq_some.mpr hproduct
  have hwithin : 0 ≤ nanoseconds.toInt ∧ nanoseconds.toInt < 86400000000000 := ⟨hlow, by omega⟩
  unfold timeAtom at hatom
  split at hatom
  · cases hatom
  simp only [hchecked, Option.bind_some, if_pos hhigh, Exec.okOr_some, Exec.ok_bind, Exec.bind_eq_ok,
    Exec.okOr_eq_ok, Except.ok.injEq] at hatom
  simp only [K.tryFromCell, if_pos hwithin, Exec.bind_eq_ok, Exec.okOr_eq_ok, Except.ok.injEq] at hitem
  obtain ⟨time, htime, rfl⟩ := hitem
  obtain ⟨time', htime', rfl⟩ := hatom
  rw [htime] at htime'
  cases htime'
  rfl

/-- **Numbers.** Every number list has its atom. -/
theorem packs {list : NumberList} (h : list.Supported) : Packs list := by
  have hclock : ∀ element, -2 ^ 31 + 1 < (fromLe element : Int32).toInt ∧
      (fromLe element : Int32).toInt < 2 ^ 31 - 1 → (fromLe element : Int32) ≠ i32Min := by
    intro element hrange hnull
    rw [hnull] at hrange
    exact absurd hrange.1 (by decide)
  cases h with
  | short => exact packs_short
  | int => exact packs_int
  | long => exact packs_long
  | real => exact packs_real
  | float => exact packs_float
  | timestamp => exact packs_timestamp
  | date => exact packs_date
  | datetime => exact packs_datetime
  | timespan => exact packs_timespan
  | minute => exact packs_clock hclock fun _ _ _ => rfl
  | second => exact packs_clock hclock fun _ _ _ => rfl
  | time => exact packs_clock hclock fun _ _ _ => rfl

end Numbers

/-! ## Lists of elements -/

section Elements

variable {categories : CategoricalMapping} {encoding : SymbolEncoding} {elements : List Bytes}
  {k : K} {items items' : List K}

/-- Elements of one width are as many numbers. -/
theorem exists_values {α : Type} [WireNumber α]
    (h : ∀ element ∈ elements, element.length = WireNumber.width α) :
    ∃ values : List α, elements = values.map toLe := by
  induction elements with
  | nil => exact ⟨[], rfl⟩
  | cons element elements ih =>
    obtain ⟨values, rfl⟩ := ih fun other hother => h other (by simp [hother])
    refine ⟨fromLe element :: values, ?_⟩
    rw [List.map_cons, WireNumber.toLe_fromLe element (h element (by simp))]

theorem seriesValues_cells {name : Str} {type : FlatType} {cells : List (Option type.Cell)} :
    dictionaryValues (.Series (.ofCells name type cells)) = .ok items ↔
      List.Forall₂ (fun cell item => K.tryFromCell type cell = .ok item) cells items := by
  have hflat : [cells].flatten = cells := by simp
  rw [dictionaryValues, K.seriesValues, Series.ofCells]
  simp only
  rw [hflat, tryCollect_eq_ok]

theorem numbers_agree {list : NumberList} (hlist : list.Supported)
    (helements : ∀ element ∈ elements, element.length = typeSize list.kType)
    (hfinite : ∀ element ∈ elements, IsFinite list.kType element)
    (htyped : typedList categories list.kType elements.length elements.flatten = .ok k)
    (hitems : dictionaryValues k = .ok items) (hatoms : AtomItems encoding list.kType elements items') :
    items = items' := by
  obtain ⟨context, atom, hread, hsame⟩ := packs hlist
  obtain ⟨values, rfl⟩ := @exists_values elements list.Element _ fun element hmem =>
    (helements element hmem).trans hlist.width
  have hflat : (values.map toLe).flatten = writeWireNumbers values := rfl
  rw [hflat, List.length_map, hlist.typedList, Exec.bind_eq_ok] at htyped
  obtain ⟨cells, hcells, hk⟩ := htyped
  cases hk
  rw [NumberList.series, seriesValues_cells] at hitems
  have hlisted := forall₂_trans (tryCollect_eq_ok.mp hcells) hitems
  rw [AtomItems, List.forall₂_map_left_iff] at hatoms
  refine items_agree hlisted hatoms ?_
  rintro value hmem item item' ⟨cell, hcell, hitem⟩ ⟨vec, rest, pos, stop, hat, hatom⟩
  rw [hread] at hatom
  obtain ⟨hvalue, -⟩ := numberAtom_element (WireNumber.toLe_length value) hat hatom
  rw [WireNumber.fromLe_toLe] at hvalue
  exact hsame value (hfinite _ (List.mem_map_of_mem hmem)) cell item item' hcell hitem hvalue

/-- Elements of one octet are their octets. -/
theorem exists_octets (h : ∀ element ∈ elements, element.length = 1) :
    ∃ octets : Bytes, elements = octets.map fun octet => [octet] := by
  induction elements with
  | nil => exact ⟨[], rfl⟩
  | cons element elements ih =>
    obtain ⟨octets, rfl⟩ := ih fun other hother => h other (by simp [hother])
    obtain ⟨octet, rfl⟩ := List.length_eq_one_iff.mp (h element (by simp))
    exact ⟨octet :: octets, rfl⟩

theorem flatten_octets (octets : Bytes) : (octets.map fun octet => [octet]).flatten = octets := by
  induction octets with
  | nil => rfl
  | cons octet octets ih => rw [List.map_cons, List.flatten_cons, ih, List.singleton_append]

/-- Octets that one conversion takes apart as a list and another as atoms. -/
theorem octets_agree {kType : UInt8} {context : String} {atom : UInt8 → Exec K} {octets : Bytes}
    {Listed : UInt8 → K → Prop} (hlisted : List.Forall₂ Listed octets items)
    (hread : ∀ vec pos, deserializeAtom vec pos (atomType kType) encoding = byteAtom vec pos context atom)
    (hsame : ∀ octet ∈ octets, ∀ item item', Listed octet item → atom octet = .ok item' → item = item')
    (hatoms : AtomItems encoding kType (octets.map fun octet => [octet]) items') :
    items = items' := by
  rw [AtomItems, List.forall₂_map_left_iff] at hatoms
  refine items_agree hlisted hatoms ?_
  rintro octet hmem item item' hitem ⟨vec, rest, pos, stop, hat, hatom⟩
  rw [hread] at hatom
  exact hsame octet hmem item item' hitem (byteAtom_element hat hatom).1

/-- No elements, no values. -/
theorem no_items {kType : UInt8} (hten : kType ≠ 10) (hkind : kType ∈ packedTypes)
    (htyped : typedList categories kType 0 [] = .ok k) (hitems : dictionaryValues k = .ok items) :
    items = [] := by
  have hempty : ∃ name type, newEmptySeries categories kType = .ok (.Series (.ofCells name type [])) := by
    simp only [packedTypes, List.mem_cons, List.not_mem_nil, or_false] at hkind
    rcases hkind with rfl | rfl | rfl | rfl | rfl | rfl | rfl | rfl | rfl | rfl | rfl | rfl | rfl | rfl |
      rfl | rfl | rfl <;> exact ⟨_, _, rfl⟩
  obtain ⟨name, type, hempty⟩ := hempty
  rw [typedList, if_neg hten, if_pos rfl, hempty] at htyped
  cases htyped
  rw [seriesValues_cells, List.forall₂_nil_left_iff] at hitems
  exact hitems

theorem booleans_agree {octets : Bytes}
    (htyped : typedList categories 1 octets.length octets = .ok k)
    (hitems : dictionaryValues k = .ok items)
    (hatoms : AtomItems encoding 1 (octets.map fun octet => [octet]) items') : items = items' := by
  by_cases hnone : octets = []
  · subst hnone
    cases hatoms
    exact no_items (by decide) (by decide) htyped hitems
  rw [typedList, if_neg (by decide), if_neg (by simpa using hnone)] at htyped
  change (validateBooleans octets _ >>= _) = _ at htyped
  simp only [Exec.bind_eq_ok, Except.ok.injEq] at htyped
  obtain ⟨-, -, rfl⟩ := htyped
  rw [seriesValues_cells, List.forall₂_map_left_iff] at hitems
  refine octets_agree hitems (fun _ _ => rfl) ?_ hatoms
  intro octet _ item item' hitem hatom
  cases hitem
  unfold booleanAtom at hatom
  split at hatom
  · next hzero =>
    cases hatom
    rw [hzero]
    rfl
  split at hatom
  · next hone =>
    cases hatom
    rw [hone]
    rfl
  · cases hatom

theorem bytes_agree {octets : Bytes}
    (htyped : typedList categories 4 octets.length octets = .ok k)
    (hitems : dictionaryValues k = .ok items)
    (hatoms : AtomItems encoding 4 (octets.map fun octet => [octet]) items') : items = items' := by
  by_cases hnone : octets = []
  · subst hnone
    cases hatoms
    exact no_items (by decide) (by decide) htyped hitems
  rw [typedList, if_neg (by decide), if_neg (by simpa using hnone)] at htyped
  cases htyped
  rw [seriesValues_cells, List.forall₂_map_left_iff] at hitems
  have hread : ∀ vec pos, deserializeAtom vec pos (atomType 4) encoding =
      byteAtom vec pos "q byte atom" fun value => .ok (.U8 value) := fun _ _ => rfl
  refine octets_agree hitems hread ?_ hatoms
  intro octet _ item item' hitem hatom
  cases hitem
  cases hatom
  rfl

theorem characters_agree {octets : Bytes}
    (htyped : typedList categories 10 octets.length octets = .ok k)
    (hitems : dictionaryValues k = .ok items)
    (hatoms : AtomItems encoding 10 (octets.map fun octet => [octet]) items') : items = items' := by
  rw [typedList, if_pos rfl] at htyped
  cases htyped
  cases hitems
  have hlisted : List.Forall₂ (fun octet item => item = K.Char octet) octets (octets.map .Char) := by
    rw [List.forall₂_map_right_iff]
    exact List.forall₂_same.mpr fun _ _ => rfl
  have hread : ∀ vec pos, deserializeAtom vec pos (atomType 10) encoding =
      byteAtom vec pos "q char atom" fun value => .ok (.Char value) := fun _ _ => rfl
  refine octets_agree hlisted hread ?_ hatoms
  intro octet _ item item' hitem hatom
  cases hatom
  exact hitem

theorem chunksExact_elements {width : Nat} (h : ∀ element ∈ elements, element.length = width) :
    chunksExact width elements.length elements.flatten = elements := by
  induction elements with
  | nil => rfl
  | cons element elements ih =>
    have hlen := h element (by simp)
    rw [List.length_cons, List.flatten_cons, chunksExact, ← hlen, List.take_left, List.drop_left, hlen,
      ih fun other hother => h other (by simp [hother])]

theorem flatten_length {width : Nat} (h : ∀ element ∈ elements, element.length = width) :
    elements.flatten.length = elements.length * width := by
  induction elements with
  | nil => simp
  | cons element elements ih =>
    rw [List.flatten_cons, List.length_append, List.length_cons, Nat.add_one_mul, h element (by simp),
      ih fun other hother => h other (by simp [hother])]
    omega

theorem guids_agree (helements : ∀ element ∈ elements, element.length = 16)
    (htyped : typedList categories 2 elements.length elements.flatten = .ok k)
    (hitems : dictionaryValues k = .ok items) (hatoms : AtomItems encoding 2 elements items') :
    items = items' := by
  by_cases hnone : elements = []
  · subst hnone
    cases hatoms
    exact no_items (by decide) (by decide) htyped hitems
  rw [typedList, if_neg (by decide), if_neg (by simpa using hnone)] at htyped
  cases htyped
  rw [seriesValues_cells, List.forall₂_map_left_iff, flatten_length helements,
    Nat.mul_div_cancel _ (by decide), chunksExact_elements helements] at hitems
  refine items_agree hitems hatoms ?_
  rintro element hmem item item' hitem ⟨vec, rest, pos, stop, hat, hatom⟩
  have hlen := helements element hmem
  change (takeBytes vec pos 16 _ >>= _) = _ at hatom
  rw [takeBytes_at hat hlen, Exec.ok_bind] at hatom
  simp only [guidAtom, dif_pos hlen, Exec.ok_bind] at hatom
  simp only [K.tryFromCell, dif_pos hlen] at hitem
  cases hitem
  cases hatom
  rfl

theorem valid_of_strict {attr : UInt8} {texts : List Bytes} (hcount : texts.length ≤ i32Max)
    (hsize : (attr :: (encode 4 texts.length ++ symbolBytes texts)).length ≤ usizeMax)
    (h : deserializeSeries categories (attr :: (encode 4 texts.length ++ symbolBytes texts)) 11 true
      .Strict = .ok k) : Utf8.Valid (symbolBytes texts) := by
  rw [deserializeSeries, if_neg (by decide), header_at hcount hsize, Exec.ok_bind] at h
  simp only at h
  split at h
  · next hzero =>
    obtain rfl := List.length_eq_zero_iff.mp hzero
    exact Utf8.valid_nil
  · rw [payload_at, Exec.okOr_some, Exec.ok_bind, checkPayloadLength, if_pos (.inr rfl), Exec.ok_bind,
      decodeList, if_neg (by decide), if_neg (by decide), if_pos rfl, decodeSymbolList,
      Exec.bind_eq_ok] at h
    obtain ⟨text, htext, -⟩ := h
    unfold decodeUtf8 at htext
    cases hvalid : Str.fromUtf8 (symbolBytes texts) with
    | some text' => exact Str.fromUtf8_eq_some.mp hvalid ▸ text'.valid
    | none =>
      simp only [hvalid] at htext
      cases htext

/-- A symbol list, under either encoding: each symbol is decoded as it is decoded alone. -/
theorem symbols_decoded {attr : UInt8} {texts : List Bytes} (hcount : texts.length ≤ i32Max)
    (hclean : ∀ text ∈ texts, 0 ∉ text)
    (hsize : (attr :: (encode 4 texts.length ++ symbolBytes texts)).length ≤ usizeMax)
    (hlossy : (Utf8.lossy (symbolBytes texts)).length ≤ usizeMax)
    (h : deserializeSeries categories (attr :: (encode 4 texts.length ++ symbolBytes texts)) 11 true
      encoding = .ok k) :
    ∃ names : List Str, (∀ name ∈ names, 0 ∉ name.bytes) ∧ k = symbolColumn categories names ∧
      List.Forall₂ (fun text name => decodeUtf8 text encoding "q symbol atom" = .ok name) texts names := by
  cases encoding with
  | Lossy =>
    have hlossy' := @deserializeSeries_lossySymbols categories attr texts hcount hclean hsize hlossy
    rw [hlossy'] at h
    cases h
    refine ⟨texts.map lossyText, ?_, rfl, ?_⟩
    · intro name hname
      obtain ⟨text, htext, rfl⟩ := List.mem_map.mp hname
      exact Utf8.zero_notMem_lossy (hclean text htext)
    · rw [List.forall₂_map_right_iff]
      exact List.forall₂_same.mpr fun text _ => decodeUtf8_lossy text _
  | Strict =>
    obtain ⟨names, rfl⟩ := exists_texts (valid_of_strict hcount hsize h)
    have hnames : ∀ name ∈ names, 0 ∉ name.bytes := fun name hname =>
      hclean _ (List.mem_map_of_mem hname)
    rw [List.length_map] at hcount hsize h
    rw [deserializeSeries_symbols hcount hnames hsize] at h
    cases h
    refine ⟨names, hnames, rfl, ?_⟩
    rw [List.forall₂_map_left_iff]
    exact List.forall₂_same.mpr fun name _ => decodeUtf8_valid

theorem seriesValues_symbolColumn {names : List Str} (hclean : ∀ name ∈ names, 0 ∉ name.bytes) :
    dictionaryValues (symbolColumn categories names) = .ok (names.map .Symbol) := by
  rw [symbolColumn, seriesValues_cells, List.forall₂_map_left_iff, List.forall₂_map_right_iff]
  refine List.forall₂_same.mpr fun name hname => ?_
  simp only [K.tryFromCell, categories.catToStr_insertCat, Exec.okOr_some, Exec.ok_bind,
    validateQSymbol_of_notMem (hclean name hname)]

theorem symbols_agree {attr : UInt8} {texts : List Bytes} (hcount : texts.length ≤ i32Max)
    (hclean : ∀ text ∈ texts, 0 ∉ text)
    (hsize : (attr :: (encode 4 texts.length ++ symbolBytes texts)).length ≤ usizeMax)
    (hlossy : (Utf8.lossy (symbolBytes texts)).length ≤ usizeMax)
    (htyped : deserializeSeries categories (attr :: (encode 4 texts.length ++ symbolBytes texts)) 11
      true encoding = .ok k)
    (hitems : dictionaryValues k = .ok items)
    (hatoms : AtomItems encoding 11 (texts.map (· ++ [0])) items') : items = items' := by
  obtain ⟨names, hnames, rfl, hdecoded⟩ := symbols_decoded hcount hclean hsize hlossy htyped
  rw [seriesValues_symbolColumn hnames] at hitems
  cases hitems
  have hlisted : List.Forall₂ (fun text item => ∃ name,
      decodeUtf8 text encoding "q symbol atom" = .ok name ∧ item = K.Symbol name) texts
      (names.map .Symbol) := by
    rw [List.forall₂_map_right_iff]
    exact hdecoded.imp fun text name hname => ⟨name, hname, rfl⟩
  rw [AtomItems, List.forall₂_map_left_iff] at hatoms
  refine items_agree hlisted hatoms ?_
  rintro text hmem _ item' ⟨name, hname, rfl⟩ ⟨vec, rest, pos, stop, hat, hatom⟩
  change (takeUtf8UntilNul vec pos encoding "q symbol atom" >>= _) = _ at hatom
  simp only [Exec.bind_eq_ok, Prod.exists, Except.ok.injEq, Prod.mk.injEq] at hatom
  obtain ⟨symbol, _, hsymbol, rfl, rfl⟩ := hatom
  obtain ⟨text', rest', hclean', heq, hsymbol, -⟩ := (takeUtf8UntilNul_eq_ok hat).mp hsymbol
  rw [List.append_assoc, List.singleton_append] at heq
  obtain ⟨rfl, -⟩ := QValue.nul_append_inj (hclean text hmem) hclean' heq
  rw [hname] at hsymbol
  cases hsymbol
  rfl

end Elements

/-! ## The values where the decoder stands -/

theorem packedTypes_cases {kType : UInt8} (h : kType ∈ packedTypes) :
    kType = 1 ∨ kType = 2 ∨ kType = 4 ∨ kType = 10 ∨ kType = 11 ∨
      ∃ list : NumberList, list.Supported ∧ kType = list.kType := by
  simp only [packedTypes, List.mem_cons, List.not_mem_nil, or_false] at h
  rcases h with rfl | rfl | rfl | rfl | rfl | rfl | rfl | rfl | rfl | rfl | rfl | rfl | rfl | rfl | rfl |
    rfl | rfl
  · exact .inl rfl
  · exact .inr (.inl rfl)
  · exact .inr (.inr (.inl rfl))
  · exact .inr (.inr (.inr (.inr (.inr ⟨_, .short, rfl⟩))))
  · exact .inr (.inr (.inr (.inr (.inr ⟨_, .int, rfl⟩))))
  · exact .inr (.inr (.inr (.inr (.inr ⟨_, .long, rfl⟩))))
  · exact .inr (.inr (.inr (.inr (.inr ⟨_, .real, rfl⟩))))
  · exact .inr (.inr (.inr (.inr (.inr ⟨_, .float, rfl⟩))))
  · exact .inr (.inr (.inr (.inl rfl)))
  · exact .inr (.inr (.inr (.inr (.inl rfl))))
  · exact .inr (.inr (.inr (.inr (.inr ⟨_, .timestamp, rfl⟩))))
  · exact .inr (.inr (.inr (.inr (.inr ⟨_, .date, rfl⟩))))
  · exact .inr (.inr (.inr (.inr (.inr ⟨_, .datetime, rfl⟩))))
  · exact .inr (.inr (.inr (.inr (.inr ⟨_, .timespan, rfl⟩))))
  · exact .inr (.inr (.inr (.inr (.inr ⟨_, .minute, rfl⟩))))
  · exact .inr (.inr (.inr (.inr (.inr ⟨_, .second, rfl⟩))))
  · exact .inr (.inr (.inr (.inr (.inr ⟨_, .time, rfl⟩))))

section Values

variable {categories : CategoricalMapping} {encoding : SymbolEncoding} {kType : UInt8}
  {vec rest : Bytes} {pos stop fuel depth : Nat} {elements : List Bytes} {k item : K} {items items' : List K}

theorem byteAtom_stop {context : String} {convert : UInt8 → Exec K} {element : Bytes}
    (h : At vec pos (element ++ rest)) (hlen : element.length = 1)
    (hok : byteAtom vec pos context convert = .ok (item, stop)) : stop = pos + element.length := by
  obtain ⟨byte, rfl⟩ := List.length_eq_one_iff.mp hlen
  exact (byteAtom_element h hok).2

/-- An atom ends where its element ends. -/
theorem deserializeAtom_stop (hkind : kType ∈ packedTypes) {element : Bytes}
    (helement : IsElement kType element) (h : At vec pos (element ++ rest))
    (hok : deserializeAtom vec pos (atomType kType) encoding = .ok (item, stop)) :
    stop = pos + element.length := by
  obtain rfl | rfl | rfl | rfl | rfl | ⟨list, hlist, rfl⟩ := packedTypes_cases hkind
  · exact byteAtom_stop h helement hok
  · have hlen : element.length = 16 := helement
    change (takeBytes vec pos 16 _ >>= _) = _ at hok
    rw [takeBytes_at h hlen, Exec.ok_bind] at hok
    simp only [Exec.bind_eq_ok, Except.ok.injEq, Prod.mk.injEq] at hok
    obtain ⟨_, -, -, rfl⟩ := hok
    rfl
  · change byteAtom vec pos "q byte atom" (fun value => .ok (.U8 value)) = _ at hok
    exact byteAtom_stop h helement hok
  · change byteAtom vec pos "q char atom" (fun value => .ok (.Char value)) = _ at hok
    exact byteAtom_stop h helement hok
  · obtain ⟨text, hclean, rfl⟩ := helement
    change (takeUtf8UntilNul vec pos encoding "q symbol atom" >>= _) = _ at hok
    simp only [Exec.bind_eq_ok, Prod.exists, Except.ok.injEq, Prod.mk.injEq] at hok
    obtain ⟨_, _, hsymbol, -, rfl⟩ := hok
    obtain ⟨text', rest', hclean', heq, -, rfl⟩ := (takeUtf8UntilNul_eq_ok h).mp hsymbol
    rw [List.append_assoc, List.singleton_append] at heq
    obtain ⟨rfl, -⟩ := QValue.nul_append_inj hclean hclean' heq
    simp
    omega
  · obtain ⟨context, atom, hread, -⟩ := packs hlist
    rw [IsElement, if_neg hlist.bounds.2.2.1] at helement
    rw [hread] at hok
    exact (numberAtom_element (helement.trans hlist.width) h hok).2

theorem atomType_high (hkind : kType ∈ packedTypes) : 237 ≤ atomType kType := by
  have hall : packedTypes.all (fun kType => 237 ≤ atomType kType) = true := by decide
  exact of_decide_eq_true (List.all_eq_true.mp hall kType hkind)

theorem decodeMany_atoms (hkind : kType ∈ packedTypes)
    (helements : ∀ element ∈ elements, IsElement kType element) (hdepth : depth ≤ maxValueDepth)
    (h : At vec pos ((elements.flatMap fun element => atomType kType :: element) ++ rest))
    (hok : decodeMany (deserializeUnchecked categories encoding (fuel + 1)) vec depth elements.length pos =
      .ok (items, stop)) : AtomItems encoding kType elements items := by
  induction elements generalizing pos items with
  | nil =>
    cases hok
    exact .nil
  | cons element elements ih =>
    rw [List.flatMap_cons, List.append_assoc, List.cons_append] at h
    simp only [List.length_cons, decodeMany, Exec.bind_eq_ok, Prod.exists, Except.ok.injEq,
      Prod.mk.injEq] at hok
    obtain ⟨item, next, hitem, others, _, hothers, rfl, rfl⟩ := hok
    rw [deserializeUnchecked_body hdepth h, deserializeBody, if_pos (atomType_high hkind)] at hitem
    obtain rfl := deserializeAtom_stop hkind (helements element (by simp)) h.skip_one hitem
    exact .cons ⟨vec, _, pos + 1, _, h.skip_one, hitem⟩
      (ih (fun other hother => helements other (by simp [hother])) h.skip_one.skip hothers)

theorem mixedList_items {decode : Bytes → Nat → Bool → Nat → Exec (K × Nat)} {attr : UInt8} {count : Nat}
    (hcount : count ≤ i32Max) (h : At vec pos (attr :: (encode 4 count ++ rest)))
    (hok : deserializeMixedList decode vec pos depth = .ok (k, stop)) :
    ∃ items, k = .MixedList items ∧ decodeMany decode vec (depth + 1) count (pos + 5) = .ok (items, stop) := by
  have hi32 : i32Max = 2 ^ 31 - 1 := rfl
  have hattr := @takeBytes_at vec _ pos [attr] h 1 rfl "q mixed-list attribute"
  have hraw := takeBytes_at h.skip_one (LittleEndian.encode_length 4 count) "q mixed-list length"
  have hdecode : LittleEndian.decode (encode 4 count) = count :=
    LittleEndian.decode_encode 4 _ (by omega)
  rw [deserializeMixedList, hattr, Exec.ok_bind] at hok
  simp only [List.length_singleton] at hok
  rw [hraw, Exec.ok_bind] at hok
  simp only [hdecode, LittleEndian.encode_length] at hok
  rw [if_neg (by rw [LittleEndian.signed_nonneg (by omega)]; omega)] at hok
  split at hok
  · cases hok
  simp only [Exec.bind_eq_ok, Prod.exists, Except.ok.injEq, Prod.mk.injEq] at hok
  obtain ⟨items, _, hitems, rfl, rfl⟩ := hok
  exact ⟨items, rfl, hitems⟩

/-- The general list of no values. -/
theorem deserializeSeries_empty {attr : UInt8} :
    deserializeSeries categories (attr :: encode 4 0) 0 true encoding =
      .ok (.Series ⟨typeName 0, .null 0⟩) := by
  have hheader := @header_at attr 0 [] (by decide) (by simpa using (by decide : 5 ≤ usizeMax)) "q list"
  rw [List.append_nil] at hheader
  rw [deserializeSeries, if_neg (by decide), hheader, Exec.ok_bind]
  rfl

theorem row_not_atom {row : NestedRow} {element tail tail' : Bytes} (hkind : kType ∈ packedTypes)
    (hrow : row.kType ∈ nestedTypes) : atomType kType :: element ++ tail ≠ row.encode ++ tail' := by
  have hlow : nestedTypes.all (fun kType => ¬ 237 ≤ kType) = true := by decide
  intro heq
  rw [NestedRow.encode_eq] at heq
  have htype := (List.cons.inj heq).1
  have hrowLow : ¬ 237 ≤ row.kType := of_decide_eq_true (List.all_eq_true.mp hlow row.kType hrow)
  exact hrowLow (htype ▸ atomType_high hkind)

/-- Only an empty list of atoms can have its end found: an atom is no row. -/
theorem atoms_no_end {attr : UInt8} (hkind : kType ∈ packedTypes) (hcount : elements.length ≤ i32Max)
    (hne : elements ≠ [])
    (h : At vec pos (attr :: (encode 4 elements.length ++
      elements.flatMap fun element => atomType kType :: element))) :
    calculateArrayEndIndex vec pos 0 ≠ .ok stop := by
  have hi32 : i32Max = 2 ^ 31 - 1 := rfl
  intro hend
  obtain ⟨attr', rows, rest', hrows, hfit, heq, -⟩ := (endIndex_nested h).mp hend
  obtain ⟨rfl, hbody⟩ := List.cons.inj heq
  obtain ⟨hlen, hbody⟩ := QValue.count_append_inj (by omega) (by omega) hbody
  cases elements with
  | nil => exact hne rfl
  | cons element elements =>
    cases rows with
    | nil => cases hlen
    | cons row rows =>
      rw [List.flatMap_cons, NestedRow.encodeAll, List.append_assoc] at hbody
      exact row_not_atom hkind hfit.1 hbody

/-- A general list of atoms is read atom by atom. -/
theorem atomValues_items (hkind : kType ∈ packedTypes) {attr : UInt8}
    (helements : ∀ element ∈ elements, IsElement kType element) (hcount : elements.length ≤ i32Max)
    (hdepth : depth + 1 ≤ maxValueDepth) (h : At vec pos (atomValues kType attr elements))
    (hok : deserializeUnchecked categories encoding (fuel + 2) vec pos false depth = .ok (k, stop))
    (hitems : dictionaryValues k = .ok items) : AtomItems encoding kType elements items := by
  have hat := h.skip_one
  rw [deserializeUnchecked_body (by omega) h, deserializeBody, if_neg (by decide),
    if_pos (by decide)] at hok
  by_cases hne : elements = []
  · subst hne
    have hlist := @deserializeList_nested categories encoding
      (deserializeUnchecked categories encoding (fuel + 1)) vec [] (pos + 1) depth false attr [] hcount
      trivial (by simpa [NestedRow.encodeAll] using hat)
    simp only [NestedRow.encodeAll, List.append_nil, List.length_nil, deserializeSeries_empty,
      Exec.ok_bind] at hlist
    rw [hlist] at hok
    cases hok
    cases hitems
    exact .nil
  · rw [deserializeList] at hok
    cases hend : calculateArrayEndIndex vec (pos + 1) 0 with
    | ok stop' => exact absurd hend (atoms_no_end hkind hcount hne hat)
    | error e =>
      rw [hend] at hok
      cases e with
      | panic => cases hok
      | error e =>
        simp only [and_self, if_true] at hok
        obtain ⟨items', rfl, hmany⟩ := mixedList_items hcount hat hok
        cases hitems
        have hbody : At vec (pos + 1 + 5)
            ((elements.flatMap fun element => atomType kType :: element) ++ []) := by
          simpa using hat.header
        exact decodeMany_atoms hkind helements hdepth hbody hmany

/-- A typed list of fixed width is read as a column. -/
theorem fixedValues_items (hkind : kType ∈ packedTypes) (heleven : kType ≠ 11) {attr : UInt8}
    (helements : ∀ element ∈ elements, element.length = typeSize kType)
    (hfinite : ∀ element ∈ elements, IsFinite kType element) (hcount : elements.length ≤ i32Max)
    (hdepth : depth ≤ maxValueDepth) (h : At vec pos (typedValues kType attr elements))
    (hok : deserializeUnchecked categories encoding (fuel + 1) vec pos false depth = .ok (k, stop))
    (hitems : dictionaryValues k = .ok items) (hatoms : AtomItems encoding kType elements items') :
    items = items' := by
  have hi32 : i32Max = 2 ^ 31 - 1 := rfl
  have hbounds : packedTypes.all (fun kType => ¬ 237 ≤ kType ∧ kType ≤ 19 ∧ kType ≠ 0) = true := by decide
  obtain ⟨hlow, hlist, hzero⟩ := of_decide_eq_true (List.all_eq_true.mp hbounds kType hkind)
  rw [deserializeUnchecked_body hdepth h, deserializeBody, if_neg hlow, if_pos hlist,
    deserializeList_typed h.skip_one hlist hzero heleven] at hok
  obtain ⟨-, _, count, payload, rest', hcount', hlen, heq, -, htyped⟩ := hok
  obtain ⟨rfl, hbody⟩ := List.cons.inj heq
  obtain ⟨rfl, hpayload⟩ := QValue.count_append_inj (by omega) (by omega) hbody
  have hrest := congrArg List.length hpayload
  rw [List.length_append, flatten_length helements, hlen] at hrest
  obtain rfl : rest' = [] := List.length_eq_zero_iff.mp (by omega)
  rw [List.append_nil] at hpayload
  subst hpayload
  have hone : ∀ {listType : UInt8}, typeSize listType = 1 →
      (∀ element ∈ elements, element.length = typeSize listType) →
      ∃ octets : Bytes, elements = octets.map fun octet => [octet] := by
    intro listType hsize hall
    exact exists_octets fun element hmem => (hall element hmem).trans hsize
  obtain rfl | rfl | rfl | rfl | rfl | ⟨list, hsupported, rfl⟩ := packedTypes_cases hkind
  · obtain ⟨octets, rfl⟩ := hone rfl helements
    rw [flatten_octets, List.length_map] at htyped
    exact booleans_agree htyped hitems hatoms
  · exact guids_agree helements htyped hitems hatoms
  · obtain ⟨octets, rfl⟩ := hone rfl helements
    rw [flatten_octets, List.length_map] at htyped
    exact bytes_agree htyped hitems hatoms
  · obtain ⟨octets, rfl⟩ := hone rfl helements
    rw [flatten_octets, List.length_map] at htyped
    exact characters_agree htyped hitems hatoms
  · exact absurd rfl heleven
  · exact numbers_agree hsupported helements hfinite htyped hitems hatoms

theorem exists_symbols (h : ∀ element ∈ elements, IsElement 11 element) :
    ∃ texts : List Bytes, (∀ text ∈ texts, 0 ∉ text) ∧ elements = texts.map (· ++ [0]) := by
  induction elements with
  | nil => exact ⟨[], by simp, rfl⟩
  | cons element elements ih =>
    obtain ⟨texts, hclean, rfl⟩ := ih fun other hother => h other (by simp [hother])
    obtain ⟨text, htext, rfl⟩ := h element (by simp)
    refine ⟨text :: texts, ?_, rfl⟩
    intro other hother
    rcases List.mem_cons.mp hother with rfl | hother
    · exact htext
    · exact hclean other hother

theorem flatten_symbols (texts : List Bytes) : (texts.map (· ++ [0])).flatten = symbolBytes texts := by
  induction texts with
  | nil => rfl
  | cons text texts ih => simp [symbolBytes, ih]

theorem symbolValues_items {attr : UInt8} (helements : ∀ element ∈ elements, IsElement 11 element)
    (hcount : elements.length ≤ i32Max) (hlossy : (Utf8.lossy elements.flatten).length ≤ usizeMax)
    (hdepth : depth ≤ maxValueDepth) (h : At vec pos (typedValues 11 attr elements))
    (hok : deserializeUnchecked categories encoding (fuel + 1) vec pos false depth = .ok (k, stop))
    (hitems : dictionaryValues k = .ok items) (hatoms : AtomItems encoding 11 elements items') :
    items = items' := by
  obtain ⟨texts, hclean, rfl⟩ := exists_symbols helements
  rw [List.length_map] at hcount
  rw [flatten_symbols] at hlossy
  have hat : At vec (pos + 1) ((NativeList.symbols attr texts).body ++ []) := by
    simpa [typedValues, NativeList.body, flatten_symbols] using h.skip_one
  have hsize : (attr :: (encode 4 texts.length ++ symbolBytes texts)).length ≤ usizeMax := by
    have hlen := hat.length_eq
    have hbound := hat.bounded
    simp only [NativeList.body, List.append_nil] at hlen
    omega
  have hlist := @deserializeList_at categories encoding
    (deserializeUnchecked categories encoding fuel) vec [] (pos + 1) depth false
    (.symbols attr texts) ⟨hcount, hclean⟩ hat
  rw [deserializeUnchecked_body hdepth h, deserializeBody, if_neg (by decide), if_pos (by decide)] at hok
  rw [NativeList.kType] at hlist
  rw [hlist] at hok
  simp only [Exec.bind_eq_ok, Except.ok.injEq, Prod.mk.injEq] at hok
  obtain ⟨_, htyped, rfl, -⟩ := hok
  exact symbols_agree hcount hclean hsize hlossy htyped hitems hatoms

end Values

/-! ## Dictionaries -/

/-- The keys of a dictionary, from the octets of its key list. -/
def keyNames (categories : CategoricalMapping) (encoding : SymbolEncoding) (keyList : Bytes) :
    Exec (List Str) := do
  let k ← deserializeSeries categories keyList 11 true encoding
  let keys ← k.intoSeries
  keyTexts keys

section Dictionaries

variable {categories : CategoricalMapping} {encoding : SymbolEncoding} {keyAttr : UInt8}
  {keys : List Bytes} {values : Bytes} {k : K}

theorem dictionaryKeys_span {vec rest : Bytes} {pos : Nat} (hclean : ∀ key ∈ keys, 0 ∉ key)
    (hcount : keys.length ≤ i32Max)
    (h : At vec pos (keyAttr :: (encode 4 keys.length ++ symbolBytes keys) ++ rest)) :
    dictionaryKeys categories encoding vec pos 11 =
      (do
        let k ← deserializeSeries categories (keyAttr :: (encode 4 keys.length ++ symbolBytes keys)) 11
          true encoding
        let keyColumn ← k.intoSeries
        .ok (keyColumn, pos + (keyAttr :: (encode 4 keys.length ++ symbolBytes keys)).length)) := by
  have hend : calculateArrayEndIndex vec pos 11 =
      .ok (pos + (keyAttr :: (encode 4 keys.length ++ symbolBytes keys)).length) :=
    (calculateArrayEndIndex_eq_ok h).mpr ⟨.symbols keyAttr keys, rest, ⟨hcount, hclean⟩, rfl, rfl, rfl⟩
  have hslice := (sliceRange_at h).mpr ⟨rest, rfl, rfl⟩
  rw [dictionaryKeys, if_pos rfl, hend, Exec.ok_bind, hslice, Exec.ok_bind]

/-- A dictionary that was decoded: its keys come from the key list alone, its values from
where they stand. -/
theorem dictionary_parts (hclean : ∀ key ∈ keys, 0 ∉ key) (hcount : keys.length ≤ i32Max)
    (hsize : (dictionaryBody keyAttr keys values).length ≤ usizeMax)
    (h : deserialize categories encoding (dictionaryBody keyAttr keys values) = .ok k) :
    ∃ names value items entries pos stop,
      keyNames categories encoding (keyAttr :: (encode 4 keys.length ++ symbolBytes keys)) = .ok names ∧
      At (dictionaryBody keyAttr keys values) pos values ∧
      deserializeUnchecked categories encoding (maxValueDepth + 1) (dictionaryBody keyAttr keys values)
        pos false 1 = .ok (value, stop) ∧
      dictionaryValues value = .ok items ∧ insertEntries [] (names.zip items) = .ok entries ∧
      k = .Dict entries := by
  have hat : At (dictionaryBody keyAttr keys values) 0 (dictionaryBody keyAttr keys values) :=
    At.start hsize
  have hkeys : At (dictionaryBody keyAttr keys values) (0 + 1 + 1)
      (keyAttr :: (encode 4 keys.length ++ symbolBytes keys) ++ values) := by
    simpa using hat.skip_one.skip_one
  have hvalues := hkeys.skip
  rw [deserialize_eq_ok, deserializeFuel, deserializeUnchecked_body (by decide) hat, deserializeBody,
    if_neg (by decide), if_neg (by decide), if_pos rfl, deserializeDictionary,
    hat.skip_one.getElem?, Exec.okOr_some, Exec.ok_bind, if_neg (by decide), if_pos (.inl rfl),
    deserializeSymbolDictionary, dictionaryKeys_span hclean hcount hkeys] at h
  simp only [Exec.bind_eq_ok, Prod.exists, Except.ok.injEq, Prod.mk.injEq] at h
  obtain ⟨keyColumn, _, ⟨keyList, hlist, _, hcolumn, rfl, rfl⟩, valueType, -, h⟩ := h
  split at h
  · cases h
  simp only [Exec.bind_eq_ok, Prod.exists, Except.ok.injEq, Prod.mk.injEq] at h
  obtain ⟨value, stop, hvalue, dict, hdict, rfl, -⟩ := h
  simp only [buildDictionary, Exec.bind_eq_ok] at hdict
  obtain ⟨names, hnames, length, -, hdict⟩ := hdict
  split at hdict
  · cases hdict
  simp only [Exec.bind_eq_ok, Except.ok.injEq] at hdict
  obtain ⟨items, hitems, entries, hentries, rfl⟩ := hdict
  refine ⟨names, value, items, entries, _, stop, ?_, hvalues, hvalue, hitems, hentries, rfl⟩
  simp only [keyNames, Exec.bind_eq_ok]
  exact ⟨keyList, hlist, _, hcolumn, hnames⟩

end Dictionaries

/-- **Packing cannot be seen.** Finite elements of one type are the same dictionary values as
a typed list and as a general list of atoms. -/
theorem dictionary_packing (categories : CategoricalMapping) (encoding : SymbolEncoding) (kType : UInt8)
    (hkind : kType ∈ packedTypes) (keyAttr attr attr' : UInt8) (keys elements : List Bytes)
    (hkeys : ∀ key ∈ keys, 0 ∉ key) (hlength : elements.length = keys.length)
    (hcount : keys.length ≤ i32Max) (helements : ∀ element ∈ elements, IsElement kType element)
    (hfinite : ∀ element ∈ elements, IsFinite kType element)
    (htyped : (dictionaryBody keyAttr keys (typedValues kType attr elements)).length ≤ usizeMax)
    (hatoms : (dictionaryBody keyAttr keys (atomValues kType attr' elements)).length ≤ usizeMax)
    (hlossy : (Utf8.lossy elements.flatten).length ≤ usizeMax) (k k' : K)
    (h : deserialize categories encoding (dictionaryBody keyAttr keys (typedValues kType attr elements)) =
      .ok k)
    (h' : deserialize categories encoding (dictionaryBody keyAttr keys (atomValues kType attr' elements)) =
      .ok k') : ∃ entries, k = .Dict entries ∧ k' = .Dict entries := by
  obtain ⟨names, value, items, entries, pos, stop, hnames, hat, hvalue, hitems, hentries, rfl⟩ :=
    dictionary_parts hkeys hcount htyped h
  obtain ⟨names', value', items', entries', pos', stop', hnames', hat', hvalue', hitems', hentries', rfl⟩ :=
    dictionary_parts hkeys hcount hatoms h'
  have hread : AtomItems encoding kType elements items' :=
    atomValues_items hkind helements (by omega) (by decide) hat' hvalue' hitems'
  have hsame : items = items' := by
    by_cases heleven : kType = 11
    · subst heleven
      exact symbolValues_items helements (by omega) hlossy (by decide) hat hvalue hitems hread
    · have hwidth : ∀ element ∈ elements, element.length = typeSize kType := by
        intro element hmem
        have helement := helements element hmem
        rwa [IsElement, if_neg heleven] at helement
      exact fixedValues_items hkind heleven hwidth hfinite (by omega) (by decide) hat hvalue hitems hread
  rw [hnames] at hnames'
  cases hnames'
  subst hsame
  rw [hentries] at hentries'
  cases hentries'
  exact ⟨entries, rfl, rfl⟩

theorem exists_ok {ε α : Type} {run : Except ε α} (h : run.isOk = true) : ∃ value, run = .ok value := by
  cases run with
  | ok value => exact ⟨value, rfl⟩
  | error e => cases h

/-- The minutes 10:00 and 10:01, packed and one by one. -/
theorem dictionary_packing_minutes :
    ∃ k k' entries,
      deserialize numberedTexts .Strict
        (dictionaryBody 0 [[97], [98]] (typedValues 17 0 [[88, 2, 0, 0], [89, 2, 0, 0]])) = .ok k ∧
      deserialize numberedTexts .Strict
        (dictionaryBody 0 [[97], [98]] (atomValues 17 0 [[88, 2, 0, 0], [89, 2, 0, 0]])) = .ok k' ∧
      k = .Dict entries ∧ k' = .Dict entries := by
  obtain ⟨k, hk⟩ := @exists_ok _ _ (deserialize numberedTexts .Strict
    (dictionaryBody 0 [[97], [98]] (typedValues 17 0 [[88, 2, 0, 0], [89, 2, 0, 0]]))) (by decide +kernel)
  obtain ⟨k', hk'⟩ := @exists_ok _ _ (deserialize numberedTexts .Strict
    (dictionaryBody 0 [[97], [98]] (atomValues 17 0 [[88, 2, 0, 0], [89, 2, 0, 0]]))) (by decide +kernel)
  have hfinite : ∀ element ∈ [[88, 2, 0, 0], [89, 2, 0, 0]], IsFinite 17 element := by
    intro element hmem
    simp only [List.mem_cons, List.not_mem_nil, or_false] at hmem
    obtain rfl | rfl := hmem
    · exact ⟨by decide, by decide⟩
    · exact ⟨by decide, by decide⟩
  obtain ⟨entries, hentries⟩ := dictionary_packing numberedTexts .Strict 17 (by decide) 0 0 0 [[97], [98]]
    [[88, 2, 0, 0], [89, 2, 0, 0]] (by decide) rfl (by decide) (by simp [IsElement]; decide) hfinite
    (by decide) (by decide) (by decide) k k' hk hk'
  exact ⟨k, k', entries, hk, hk', hentries⟩

end Xqdb
