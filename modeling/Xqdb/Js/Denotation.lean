import Xqdb.Js.Facade
import Xqdb.Js.Objects
import Xqdb.Node.RoundTrip
import Xqdb.Node.Snapshot

/-! What q value a JavaScript value is sent as. The facade writes it as an object, the binding takes
a snapshot of the object and makes a value of the client out of that; whatever comes through is the
value that the JavaScript value denotes. -/

namespace Xqdb
namespace Js

open Node (Packages DtoError OwnedNativeValue utf8Of unitsOf snapshotUnknownValue snapshotUnknownEach
  snapshotUnknownEachEntry intoK eachIntoK entriesIntoK)
open Outcome (bind_eq_ok pure_eq_ok)

variable {A : Arrow}

/-- Induction over arrays and objects. -/
theorem JsValue.induct {motive : JsValue A → Prop} (leaf : ∀ value : JsValue A, value.isLeaf = true → motive value)
    (array : ∀ items, (∀ item ∈ items, motive item) → motive (.array items))
    (object : ∀ properties, (∀ property ∈ properties, motive property.2) → motive (.object properties)) :
    ∀ value, motive value := by
  intro value
  refine @JsValue.rec A motive (fun items => ∀ item ∈ items, motive item)
    (fun properties => ∀ property ∈ properties, motive property.2) (fun property => motive property.2)
    (leaf _ rfl) (fun _ => leaf _ rfl) (fun _ => leaf _ rfl) (fun _ => leaf _ rfl) (fun _ => leaf _ rfl)
    (fun _ => leaf _ rfl) (fun _ => leaf _ rfl) (fun _ => leaf _ rfl) (fun _ _ => leaf _ rfl) (fun _ => leaf _ rfl)
    (fun _ => leaf _ rfl) (fun _ => leaf _ rfl) (fun _ => leaf _ rfl) (fun _ => leaf _ rfl) (fun _ => leaf _ rfl)
    array object ?_ ?_ ?_ ?_ ?_ value
  · simp
  · intro item items hitem hitems other hmem
    cases hmem with
    | head => exact hitem
    | tail _ hmem => exact hitems other hmem
  · simp
  · intro property properties hproperty hproperties other hmem
    cases hmem with
    | head => exact hproperty
    | tail _ hmem => exact hproperties other hmem
  · intro key value hvalue
    exact hvalue

/-! ## The value that is meant -/

mutual

/-- `k` is the q value of a JavaScript value without tables, vectors and lossless values in it. -/
def Denotes (env : Packages) : JsValue A → K → Prop
  | .null, k => k = .Null
  | .boolean value, k => k = .Boolean value
  | .number bits, k => k = .F64 bits
  | .bigint value, k => ∃ n : Int64, n.toInt = value ∧ k = .I64 n
  | .string value, k => 0 ∉ (utf8Of value).bytes ∧ k = .Symbol (utf8Of value)
  | .bytes value, k => k = .CharVector value
  | .operator name, k => ∃ operator : QOperator, unitsOf (primitiveText operator.name) = name ∧
      name ∈ supportedQOperatorNames ∧ k = .Operator operator
  | .lambda source context, k => ∃ lambda : QLambda, lambda.source = utf8Of source ∧ lambda.context = utf8Of context ∧
      validatedQLambdaParts source context = .ok (source, context) ∧ k = .Lambda lambda
  | .timestamp nanoseconds, k => ∃ (t : DateTime) (n : Int64), ¬ t.isLeap ∧ t.timestampNanosOpt = some n ∧
      n.toInt = nanoseconds ∧ k = .DateTime t
  | .date value, k => isoDate value = true ∧ ∃ date, env.dateParseFromStr (utf8Of value) = .ok date ∧ k = .Date date
  | .time nanoseconds, k => ∃ t : NaiveTime, ¬ t.isLeap ∧ Node.timeNanos t = nanoseconds ∧
      nanoseconds % Node.nanosPerMillisecond = 0 ∧ k = .Time t
  | .timespan nanoseconds, k => ∃ n : Int64, n.toInt = nanoseconds ∧ k = .Duration (Duration.ofNanoseconds n)
  | .array items, k => ∃ values, DenoteAll env items values ∧ k = .MixedList values
  | .object properties, k => ∃ entries, DenoteEntries env properties entries ∧ (entries.map Prod.fst).Nodup ∧
      k = .Dict entries
  | .qvalue _, _ => False
  | .table _, _ => False
  | .vector _, _ => False

def DenoteAll (env : Packages) : List (JsValue A) → List K → Prop
  | [], values => values = []
  | item :: rest, values => ∃ value others, Denotes env item value ∧ DenoteAll env rest others ∧ values = value :: others

def DenoteEntries (env : Packages) : List (JsString × JsValue A) → List (Str × K) → Prop
  | [], entries => entries = []
  | (key, item) :: rest, entries => ∃ value others, 0 ∉ (utf8Of key).bytes ∧ Denotes env item value ∧
      DenoteEntries env rest others ∧ entries = (utf8Of key, value) :: others

end

mutual

/-- No table, vector or lossless value anywhere. -/
def Convenient : JsValue A → Prop
  | .array items => AllConvenient items
  | .object properties => EntriesConvenient properties
  | .qvalue _ => False
  | .table _ => False
  | .vector _ => False
  | _ => True

def AllConvenient : List (JsValue A) → Prop
  | [] => True
  | item :: rest => Convenient item ∧ AllConvenient rest

def EntriesConvenient : List (JsString × JsValue A) → Prop
  | [] => True
  | (_, value) :: rest => Convenient value ∧ EntriesConvenient rest

end

theorem allConvenient_iff {items : List (JsValue A)} : AllConvenient items ↔ ∀ item ∈ items, Convenient item := by
  induction items with
  | nil => simp [AllConvenient]
  | cons item rest ih => simp [AllConvenient, ih]

theorem entriesConvenient_iff {properties : List (JsString × JsValue A)} :
    EntriesConvenient properties ↔ ∀ property ∈ properties, Convenient property.2 := by
  induction properties with
  | nil => simp [EntriesConvenient]
  | cons property rest ih => simp [EntriesConvenient, ih]

/-! ## The way in -/

/-- Every name that the facade knows is a primitive, which comes back under its name. -/
theorem new_supported {name : JsString} (h : name ∈ supportedQOperatorNames) {operator : QOperator}
    (hnew : QOperator.new (utf8Of name) = .ok operator) : unitsOf (primitiveText operator.name) = name := by
  have htable : supportedQOperatorNames.all (fun name =>
      (QOperator.new (utf8Of name)).toOption.all fun operator => unitsOf (primitiveText operator.name) = name) = true := by
    decide +kernel
  have hrow := List.all_eq_true.mp htable name h
  rw [hnew] at hrow
  exact of_decide_eq_true hrow

theorem withContext_parts {source context : Str} {lambda : QLambda} (h : QLambda.withContext source context = .ok lambda) :
    lambda.source = source ∧ lambda.context = context := by
  unfold QLambda.withContext at h
  split at h
  · obtain rfl := Except.ok.inj h
    exact ⟨rfl, rfl⟩
  · cases h

theorem timestampFromBigint_eq_ok {n : Int64} {k : K} (h : Node.timestampFromBigint n = .ok k) :
    ∃ t : DateTime, ¬ t.isLeap ∧ t.timestampNanosOpt = some n ∧ k = .DateTime t := by
  unfold Node.timestampFromBigint at h
  have hlow := n.le_toInt
  have hhigh := n.toInt_lt
  split at h
  · cases h
  split at h
  · next t ht =>
    obtain rfl := (Except.ok.inj h).symm
    unfold DateTime.fromTimestamp at ht
    split at ht
    · next hrange =>
      obtain rfl := (Option.some.inj ht).symm
      have hleap : ¬ (DateTime.mk (n.toInt / Node.nanosPerSecond) (n.toInt % Node.nanosPerSecond).toNat hrange.2.1).isLeap := by
        simp only [DateTime.isLeap, Node.nanosPerSecond]
        omega
      obtain ⟨nanos, hnanos, hvalue⟩ := Node.timestampNanosOpt_of_range hleap (by simp only [Node.nanosPerSecond]; omega)
        (by simp only [Node.nanosPerSecond]; omega)
      obtain rfl : nanos = n := by
        apply Int64.toInt_inj.mp
        rw [hvalue]
        simp only [Node.nanosPerSecond]
        omega
      exact ⟨_, hleap, hnanos, rfl⟩
    · cases ht
  · cases h

theorem timeFromBigint_eq_ok {n : Int64} {k : K} (h : Node.timeFromBigint n = .ok k) :
    ∃ t : NaiveTime, ¬ t.isLeap ∧ Node.timeNanos t = n.toInt ∧ n.toInt % Node.nanosPerMillisecond = 0 ∧ k = .Time t := by
  unfold Node.timeFromBigint at h
  split at h
  · cases h
  next hday =>
  split at h
  · cases h
  next haligned =>
  split at h
  · next t ht =>
    obtain rfl := (Except.ok.inj h).symm
    unfold NaiveTime.fromNumSecondsFromMidnightOpt at ht
    split at ht
    · next hrange =>
      obtain rfl := (Option.some.inj ht).symm
      refine ⟨_, ?_, ?_, not_not.mp haligned, rfl⟩
      · simp only [NaiveTime.isLeap, Node.nanosPerSecond]
        omega
      · simp only [Node.timeNanos, Node.nanosPerSecond]
        simp only [Node.nanosPerDay, Node.nanosPerSecond] at hday
        omega
    · cases ht
  · cases h

theorem depth_le_of_ok {value : JsValue A} {depth : Nat} {native : NativeObject}
    (h : normalizeInputAtDepth value depth = .ok native) : depth ≤ maxValueDepth := by
  by_contra hdeep
  rw [Heap.normalizeInputAtDepth_deep value (by omega)] at h
  cases h

theorem validateQOperatorName_eq_ok {name found : JsString} (h : validateQOperatorName name = .ok found) :
    found = name ∧ name ∈ supportedQOperatorNames := by
  unfold validateQOperatorName at h
  split at h
  · cases h
  split at h
  · cases h
  next hsupported => exact ⟨(Except.ok.inj h).symm, not_not.mp hsupported⟩

theorem validatedQLambdaParts_eq_ok {source context : JsString} {parts : JsString × JsString}
    (h : validatedQLambdaParts source context = .ok parts) : parts = (source, context) := by
  have hsame := h
  unfold validatedQLambdaParts at h
  split at h
  · next hparts => exact Except.ok.inj (hsame.symm.trans (Tree.validatedQLambdaParts_ok hparts))
  · cases h

theorem validateQSymbol_eq_ok {value : Str} {field : String} {u : Unit} (h : Node.validateQSymbol value field = .ok u) :
    0 ∉ value.bytes := by
  unfold Node.validateQSymbol at h
  split at h
  · cases h
  next hnul => exact hnul

theorem fromClient_eq_ok {α : Type} {result : Except XqdbError α} {a : α} (h : Node.fromClient result = .ok a) :
    result = .ok a := by
  cases result with
  | ok found => exact congrArg _ (Except.ok.inj h)
  | error e => cases h

theorem fromText_eq_ok {α : Type} {message : String} {result : Except String α} {a : α}
    (h : Node.fromText message result = .ok a) : result = .ok a := by
  cases result with
  | ok found => exact congrArg _ (Except.ok.inj h)
  | error e => cases h

section Inbound

variable {env : Packages} {limit depth level remaining left : Nat} {native : NativeObject} {owned : OwnedNativeValue} {k : K}

theorem denotes_of_leaf {value : JsValue A} (hleaf : value.isLeaf = true) (hconvenient : Convenient value)
    (hnative : normalizeInputAtDepth value depth = .ok native)
    (howned : snapshotUnknownValue env.toNapi limit native level remaining = .ok (owned, left))
    (hk : intoK env owned = .ok k) : Denotes env value k := by
  rw [Heap.normalizeInputAtDepth_leaf hleaf (depth_le_of_ok hnative)] at hnative
  cases value with
  | null =>
    cases hnative
    obtain rfl := Node.snapshot_null howned
    exact (Except.ok.inj hk).symm
  | boolean value =>
    cases hnative
    obtain rfl := Node.snapshot_boolean howned
    exact (Except.ok.inj hk).symm
  | number bits =>
    cases hnative
    obtain rfl := Node.snapshot_number rfl howned
    exact (Except.ok.inj hk).symm
  | bigint n =>
    cases hnative
    obtain ⟨m, hm, rfl⟩ := Node.snapshot_bigint rfl howned
    exact ⟨m, hm, (Except.ok.inj hk).symm⟩
  | string text =>
    rw [normalizeInputAtDepth, if_neg (by decide)] at hnative
    split at hnative
    · cases hnative
    cases hnative
    obtain rfl := Node.snapshot_string rfl howned
    obtain ⟨_, hrequired, hk⟩ := bind_eq_ok.mp hk
    cases hrequired
    obtain ⟨_, hsymbol, hpure⟩ := bind_eq_ok.mp hk
    exact ⟨validateQSymbol_eq_ok hsymbol, (Except.ok.inj hpure).symm⟩
  | qvalue state => exact hconvenient.elim
  | bytes bytes =>
    cases hnative
    obtain rfl := Node.snapshot_bytes rfl howned
    exact (Except.ok.inj hk).symm
  | operator name =>
    rw [normalizeInputAtDepth, if_neg (by decide)] at hnative
    obtain ⟨found, hvalid, hpure⟩ := bind_eq_ok.mp hnative
    cases hpure
    obtain rfl := Node.snapshot_string rfl howned
    obtain ⟨_, hrequired, hk⟩ := bind_eq_ok.mp hk
    cases hrequired
    obtain ⟨operator, hnew, hpure⟩ := bind_eq_ok.mp hk
    obtain ⟨rfl, hsupported⟩ := validateQOperatorName_eq_ok hvalid
    exact ⟨operator, new_supported hsupported (fromClient_eq_ok hnew), hsupported, (Except.ok.inj hpure).symm⟩
  | lambda source context =>
    rw [normalizeInputAtDepth, if_neg (by decide)] at hnative
    obtain ⟨parts, hvalid, hpure⟩ := bind_eq_ok.mp hnative
    cases hpure
    obtain rfl := validatedQLambdaParts_eq_ok hvalid
    obtain rfl := Node.snapshot_lambda howned
    obtain ⟨_, hrequired, hk⟩ := bind_eq_ok.mp hk
    cases hrequired
    obtain ⟨_, hrequired, hk⟩ := bind_eq_ok.mp hk
    cases hrequired
    obtain ⟨lambda, hnew, hpure⟩ := bind_eq_ok.mp hk
    obtain ⟨hsource, hcontext⟩ := withContext_parts (fromClient_eq_ok hnew)
    exact ⟨lambda, hsource, hcontext, hvalid, (Except.ok.inj hpure).symm⟩
  | timestamp n =>
    cases hnative
    obtain ⟨m, hm, rfl⟩ := Node.snapshot_bigint rfl howned
    obtain ⟨t, hleap, hnanos, rfl⟩ := timestampFromBigint_eq_ok hk
    exact ⟨t, m, hleap, hnanos, hm, rfl⟩
  | date text =>
    rw [normalizeInputAtDepth, if_neg (by decide)] at hnative
    split at hnative
    · cases hnative
    next hiso =>
    cases hnative
    obtain rfl := Node.snapshot_string rfl howned
    obtain ⟨_, hrequired, hk⟩ := bind_eq_ok.mp hk
    cases hrequired
    obtain ⟨date, hdate, hpure⟩ := bind_eq_ok.mp hk
    exact ⟨by simpa using hiso, date, fromText_eq_ok hdate, (Except.ok.inj hpure).symm⟩
  | time n =>
    rw [normalizeInputAtDepth, if_neg (by decide)] at hnative
    split at hnative
    · cases hnative
    split at hnative
    · cases hnative
    cases hnative
    obtain ⟨m, rfl, rfl⟩ := Node.snapshot_bigint rfl howned
    exact timeFromBigint_eq_ok hk
  | timespan n =>
    cases hnative
    obtain ⟨m, hm, rfl⟩ := Node.snapshot_bigint rfl howned
    exact ⟨m, hm, (Except.ok.inj hk).symm⟩
  | table value => exact hconvenient.elim
  | vector value => exact hconvenient.elim
  | array items => cases hleaf
  | object properties => cases hleaf

theorem denoteAll_of_ok {items : List (JsValue A)} {natives : List NativeObject} {owneds : List OwnedNativeValue}
    {values : List K}
    (ih : ∀ item ∈ items, ∀ {depth level remaining left native owned k},
      normalizeInputAtDepth item depth = .ok native →
      snapshotUnknownValue env.toNapi limit native level remaining = .ok (owned, left) →
      intoK env owned = .ok k → Denotes env item k)
    (hnatives : normalizeItems items depth = .ok natives)
    (howneds : snapshotUnknownEach env.toNapi limit natives level remaining = .ok (owneds, left))
    (hvalues : eachIntoK env owneds = .ok values) : DenoteAll env items values := by
  induction items generalizing natives owneds values remaining with
  | nil =>
    cases hnatives
    cases howneds
    exact (Except.ok.inj hvalues).symm
  | cons item rest ihrest =>
    rw [normalizeItems] at hnatives
    obtain ⟨native, hnative, hrest⟩ := bind_eq_ok.mp hnatives
    obtain ⟨others, hothers, hpure⟩ := bind_eq_ok.mp hrest
    cases hpure
    rw [snapshotUnknownEach] at howneds
    obtain ⟨⟨owned, start⟩, howned, hrest⟩ := bind_eq_ok.mp howneds
    obtain ⟨⟨owneds, last⟩, howneds, hpure⟩ := bind_eq_ok.mp hrest
    cases hpure
    rw [eachIntoK] at hvalues
    obtain ⟨k, hk, hrest⟩ := bind_eq_ok.mp hvalues
    obtain ⟨ks, hks, hpure⟩ := bind_eq_ok.mp hrest
    cases hpure
    exact ⟨k, ks, ih item (by simp) hnative howned hk,
      ihrest (fun item hmem => ih item (by simp [hmem])) hothers howneds hks, rfl⟩

theorem denoteEntries_of_ok {properties : List (JsString × JsValue A)} {natives : List (JsString × NativeObject)}
    {owneds : List (Str × OwnedNativeValue)} {dictionary entries : List (Str × K)}
    (ih : ∀ property ∈ properties, ∀ {depth level remaining left native owned k},
      normalizeInputAtDepth property.2 depth = .ok native →
      snapshotUnknownValue env.toNapi limit native level remaining = .ok (owned, left) →
      intoK env owned = .ok k → Denotes env property.2 k)
    (hnatives : normalizeDictionary properties depth = .ok natives)
    (howneds : snapshotUnknownEachEntry env.toNapi limit natives level remaining = .ok (owneds, left))
    (hentries : entriesIntoK env owneds dictionary = .ok entries) (hnodup : (dictionary.map Prod.fst).Nodup) :
    ∃ others, entries = dictionary ++ others ∧ DenoteEntries env properties others ∧ (entries.map Prod.fst).Nodup := by
  induction properties generalizing natives owneds dictionary remaining with
  | nil =>
    cases hnatives
    cases howneds
    obtain rfl := Except.ok.inj hentries
    exact ⟨[], by simp, rfl, hnodup⟩
  | cons property rest ihrest =>
    obtain ⟨key, item⟩ := property
    rw [normalizeDictionary] at hnatives
    split at hnatives
    · cases hnatives
    obtain ⟨native, hnative, hrest⟩ := bind_eq_ok.mp hnatives
    obtain ⟨others, hothers, hpure⟩ := bind_eq_ok.mp hrest
    cases hpure
    rw [snapshotUnknownEachEntry] at howneds
    obtain ⟨⟨name, start⟩, hname, hrest⟩ := bind_eq_ok.mp howneds
    obtain ⟨⟨owned, start'⟩, howned, hrest⟩ := bind_eq_ok.mp hrest
    obtain ⟨⟨founds, last⟩, hfounds, hpure⟩ := bind_eq_ok.mp hrest
    cases hpure
    obtain rfl := Node.requiredStringProperty_eq_ok hname
    rw [entriesIntoK] at hentries
    obtain ⟨_, hsymbol, hrest⟩ := bind_eq_ok.mp hentries
    split at hrest
    · cases hrest
    next hnew =>
    obtain ⟨k, hk, hrest⟩ := bind_eq_ok.mp hrest
    have hnodup' : ((dictionary ++ [(utf8Of key, k)]).map Prod.fst).Nodup := by
      rw [List.map_append, List.nodup_append]
      refine ⟨hnodup, by simp, ?_⟩
      intro a ha b hb
      obtain rfl : b = utf8Of key := by simpa using hb
      exact fun heq => hnew (heq ▸ ha)
    obtain ⟨more, rfl, hmore, hall⟩ := ihrest (fun property hmem => ih property (by simp [hmem])) hothers hfounds hrest
      hnodup'
    exact ⟨(utf8Of key, k) :: more, by simp,
      ⟨k, more, validateQSymbol_eq_ok hsymbol, ih (key, item) (by simp) hnative howned hk, hmore, rfl⟩, hall⟩

/-- **What comes through is what was meant.** -/
theorem denotes_of_ok {value : JsValue A} (hconvenient : Convenient value)
    (hnative : normalizeInputAtDepth value depth = .ok native)
    (howned : snapshotUnknownValue env.toNapi limit native level remaining = .ok (owned, left))
    (hk : intoK env owned = .ok k) : Denotes env value k := by
  induction value using JsValue.induct generalizing depth level remaining left native owned k with
  | leaf value hleaf => exact denotes_of_leaf hleaf hconvenient hnative howned hk
  | array items ih =>
    have hdepth := depth_le_of_ok hnative
    rw [normalizeInputAtDepth, if_neg (Nat.not_lt.mpr hdepth)] at hnative
    obtain ⟨natives, hnatives, hpure⟩ := bind_eq_ok.mp hnative
    cases hpure
    obtain ⟨owneds, start, last, howneds, rfl⟩ := Node.snapshot_list howned
    obtain ⟨values, hvalues, hpure⟩ := bind_eq_ok.mp hk
    refine ⟨values, ?_, (Except.ok.inj hpure).symm⟩
    exact denoteAll_of_ok (fun item hmem => ih item hmem (allConvenient_iff.mp hconvenient item hmem)) hnatives howneds hvalues
  | object properties ih =>
    have hdepth := depth_le_of_ok hnative
    rw [normalizeInputAtDepth, if_neg (Nat.not_lt.mpr hdepth)] at hnative
    obtain ⟨natives, hnatives, hpure⟩ := bind_eq_ok.mp hnative
    cases hpure
    obtain ⟨owneds, start, last, howneds, rfl⟩ := Node.snapshot_dictionary howned
    obtain ⟨entries, hentries, hpure⟩ := bind_eq_ok.mp hk
    obtain ⟨others, hsame, hothers, hnodup⟩ := denoteEntries_of_ok
      (fun property hmem => ih property hmem (entriesConvenient_iff.mp hconvenient property hmem)) hnatives howneds
      hentries (by simp)
    rw [List.nil_append] at hsame
    exact ⟨entries, hsame ▸ hothers, hnodup, (Except.ok.inj hpure).symm⟩

end Inbound

end Js
end Xqdb
