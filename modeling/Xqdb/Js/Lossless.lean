import Xqdb.Js.Helpers

/-! Lossless values in JavaScript. `deserializeIpcBytes6` with `lossless` hands out the body of a
message as it came, and `serializeAsIpcBytes6` puts it into the next message as it is. -/

namespace Xqdb

/-- A lossless value is its own encoding. -/
theorem K.serialize_qvalue {value : Xqdb.QValue} (hsize : value.bytes.length ≤ isizeMax) :
    (K.QValue value).serialize = .ok value.bytes := by
  obtain ⟨wire, -, hdepth, -, hmetadata⟩ := value.exists_tree
  have hmax : value.metadata.maxDepth ≤ maxValueDepth := by
    rw [hmetadata]
    exact hdepth
  refine K.serialize_eq_ok.mpr ⟨⟨value.bytes.length, ?_, hsize⟩, rfl⟩
  rw [K.j6Len, K.j6LenWithDepth_leaf (by trivial), if_neg (by decide), K.leafLen, if_neg (by omega)]

namespace Node

open Outcome (bind_eq_ok pure_eq_ok)

/-! ## The snapshot of a lossless value -/

/-- The object for a lossless value. -/
def qvalueObject (value : QValue) : Js.NativeObject :=
  { tag := "qvalue", bytesValue := some value.bytes, typeCode := some (F64.ofInt value.typeCode),
    length := some (F64.ofInt value.len), isTable := some value.isTable }

/-- What a snapshot of it holds. -/
def qvalueOwned (value : QValue) : OwnedNativeValue :=
  { tag := "qvalue", bytesValue := some value.bytes, typeCode := some (Int16.ofInt value.typeCode),
    length := some value.len, isTable := some value.isTable }

theorem kIntoNative_qvalue (env : Packages) (value : QValue) :
    (kIntoNative env (.QValue value)).map toJs = .ok (qvalueObject value) := by
  obtain ⟨hlow, hhigh⟩ := value.typeCode_bounds
  have hcode : (Int32.ofInt value.typeCode).toInt = value.typeCode := Int32.toInt_ofInt_of_le (by omega) (by omega)
  rw [qvalueObject, ← hcode, kIntoNative, kIntoNativeWithDepth, checkDepth_ok (Nat.zero_le _)]
  rfl

theorem requiredExactIntegerProperty_ofInt {field : String} {minimum maximum n : Int} (hmin : minimum.natAbs < 2 ^ 53)
    (hmax : maximum.natAbs < 2 ^ 53) (hlow : minimum ≤ n) (hhigh : n ≤ maximum) :
    requiredExactIntegerProperty field minimum maximum (some (F64.ofInt n)) = .ok n := by
  have hn : n.natAbs < 2 ^ 53 := by omega
  have hbelow : decide (n < minimum) = false := decide_eq_false (by omega)
  have habove : decide (maximum < n) = false := decide_eq_false (by omega)
  rw [requiredExactIntegerProperty, requiredProperty, ok_bind, (F64.ofInt_spec hn).1, F64.hasFraction_ofInt hn,
    F64.lt_ofInt hn hmin, F64.lt_ofInt hmax hn, hbelow, habove, if_neg (by simp), F64.cast_ofInt hn (by omega) (by omega)]
  rfl

theorem charge_eq_ok {limit remaining bytes left : Nat} :
    charge limit remaining bytes = .ok left ↔ bytes ≤ remaining ∧ left = remaining - bytes := by
  unfold charge
  split
  · simp only [conversion, reduceCtorEq, false_iff]
    omega
  · simp only [Except.ok.injEq]
    omega

/-- The fields that the tag of a lossless value calls for. -/
def qvalueFields : UInt16 := fieldBytes ||| fieldTypeCode ||| fieldLength ||| fieldIsTable

theorem validatePayloadFields_qvalue (value : QValue) :
    validatePayloadFields "qvalue" (payloadFieldsFromKeys (qvalueObject value)) = .ok qvalueFields := by
  have hkeys : payloadFieldsFromKeys (qvalueObject value) = qvalueFields := by
    simp [payloadFieldsFromKeys, presence, qvalueObject, qvalueFields]
  rw [hkeys]
  exact validatePayloadFields_same rfl

theorem readWhen_ok {α : Type} {read : Except DtoError α} {a : α} (h : read = .ok a) : readWhen true read = .ok (some a) := by
  rw [h]
  rfl

/-- A lossless value costs its tag and its octets. -/
theorem snapshotUnknownValue_qvalue (env : Napi) (limit depth remaining : Nat) {value : QValue} (hdepth : depth ≤ maxValueDepth)
    (hlen : value.len < 2 ^ 53) :
    snapshotUnknownValue env limit (qvalueObject value) depth remaining = (do
      let remaining ← charge limit remaining 6
      let remaining ← charge limit remaining value.bytes.length
      return (qvalueOwned value, remaining)) := by
  obtain ⟨hlow, hhigh⟩ := value.typeCode_bounds
  have hcode := @requiredExactIntegerProperty_ofInt "typeCode" (-2 ^ 15) (2 ^ 15 - 1) value.typeCode (by decide) (by decide)
    hlow (by omega)
  have hlength : (do numberToUsize (← requiredProperty "length" (some (F64.ofInt value.len))) "length") = .ok value.len := by
    rw [requiredProperty, ok_bind, numberToUsize_ofInt hlen]
  have hisTable : requiredProperty "isTable" (some value.isTable) = .ok value.isTable := rfl
  have hfields := validatePayloadFields_qvalue value
  have htag : requiredTagProperty limit "qvalue" remaining = charge limit remaining 6 := by
    rw [requiredTagProperty, if_neg (by decide)]
    rfl
  rw [qvalueObject] at hfields ⊢
  rw [snapshotUnknownValue, checkDepth_ok hdepth, ok_bind, htag]
  cases charge limit remaining 6 with
  | error e => rfl
  | ok remaining =>
    have hbool : decide (qvalueFields = fieldBool) = false := by decide
    have hnumber : decide (qvalueFields = fieldNumber) = false := by decide
    have hbigint : decide (qvalueFields = fieldBigint) = false := by decide
    have hstring : decide (qvalueFields &&& fieldString ≠ 0) = false := by decide
    have hcontext : decide (qvalueFields &&& fieldContext ≠ 0) = false := by decide
    have hbytes : decide (qvalueFields &&& fieldBytes ≠ 0) = true := by decide
    have htypeCode : decide (qvalueFields &&& fieldTypeCode ≠ 0) = true := by decide
    have hlengths : decide (qvalueFields &&& fieldLength ≠ 0) = true := by decide
    have htable : decide (qvalueFields &&& fieldIsTable ≠ 0) = true := by decide
    have hitems : decide (qvalueFields = fieldItems) = false := by decide
    have hentries : decide (qvalueFields = fieldEntries) = false := by decide
    have hnone {α : Type} (read : Except DtoError α) : readWhen false read = .ok none := rfl
    have hfree {α : Type} (read : Nat → Except DtoError (α × Nat)) (remaining : Nat) :
        readChargedWhen false read remaining = .ok (none, remaining) := rfl
    rw [ok_bind, ok_bind, hfields, ok_bind]
    simp only [hbool, hnumber, hbigint, hstring, hcontext, hbytes, htypeCode, hlengths, htable, hitems, hentries, hnone,
      hfree, ok_bind]
    have hread : readChargedWhen true (requiredBytesProperty limit (some value.bytes)) remaining =
        (charge limit remaining value.bytes.length).map fun left => (some value.bytes, left) := by
      rw [readChargedWhen, if_pos rfl, requiredBytesProperty, requiredProperty, ok_bind]
      cases charge limit remaining value.bytes.length with
      | error e => rfl
      | ok left => rfl
    rw [hread]
    cases charge limit remaining value.bytes.length with
    | error e => rfl
    | ok left =>
      rw [Except.map, ok_bind, readWhen_ok hcode, ok_bind, readWhen_ok hlength, ok_bind, readWhen_ok hisTable, ok_bind,
        snapshotUnknownItems, ok_bind, snapshotUnknownEntries, ok_bind]
      rfl

/-- A lossless value comes through if the budget holds its octets, the slot of the value and its tag. -/
theorem snapshotNativeValue_qvalue (env : Packages) {value : QValue} (hlen : value.len < 2 ^ 53) {owned : OwnedNativeValue} :
    snapshotNativeValue env.toNapi (qvalueObject value) = .ok owned ↔
      env.ownedValueSize + 6 + value.bytes.length ≤ maxSnapshotBytes ∧ owned = qvalueOwned value := by
  rw [snapshotNativeValue]
  simp only [bind_eq_ok, pure_eq_ok, charge_eq_ok, snapshotUnknownValue_qvalue env.toNapi _ _ _ (Nat.zero_le _) hlen]
  constructor
  · rintro ⟨start, ⟨hslot, rfl⟩, found, ⟨left, ⟨htag, rfl⟩, last, ⟨hbytes, rfl⟩, rfl⟩, rfl⟩
    exact ⟨by omega, rfl⟩
  · rintro ⟨hfits, rfl⟩
    exact ⟨_, ⟨by omega, rfl⟩, _, ⟨_, ⟨by omega, rfl⟩, _, ⟨by omega, rfl⟩, rfl⟩, rfl⟩

theorem intoK_qvalueOwned (env : Packages) (value : QValue) : intoK env (qvalueOwned value) = .ok (.QValue value) :=
  qvalueFromParts_parts value

end Node

namespace Js

open Node (Packages qvalueObject utf8Of)
open Connector (generateJ6IpcMsg generateJ6IpcMsg_iff)
open Outcome (bind_eq_ok mapError_eq_ok toOption_ok toOption_eq_some toOption_eq_none)

variable {A : Arrow}

/-! ## Lossless values for JavaScript -/

/-- What a JavaScript value is sent as. -/
def sentAs (env : Packages) (value : JsValue A) : Except Rejection K := do
  let native ← facade (normalizeInput value)
  binding (do
    let owned ← Node.snapshotNativeValue env.toNapi native
    Node.intoK env owned)

theorem serializeAsIpcBytes6_iff {env : Packages} {messageType : MsgType} {compress : Bool} {value : JsValue A} {frame : Bytes} :
    serializeAsIpcBytes6 env messageType compress value = .ok frame ↔
      ∃ k, sentAs env value = .ok k ∧ generateJ6IpcMsg messageType compress k = .ok frame := by
  simp only [serializeAsIpcBytes6_eq_ok, sentAs, facade, binding, bind_eq_ok, mapError_eq_ok]
  constructor
  · rintro ⟨native, owned, k, hnative, howned, hk, hframe⟩
    exact ⟨k, ⟨native, hnative, owned, howned, hk⟩, hframe⟩
  · rintro ⟨k, ⟨native, hnative, owned, howned, hk⟩, hframe⟩
    exact ⟨native, owned, k, hnative, howned, hk, hframe⟩

/-- The state of the JavaScript object for a lossless value. -/
def stateOf (value : QValue) : QValueState :=
  ⟨value.bytes, F64.ofInt value.typeCode, F64.ofInt value.len, value.isTable⟩

theorem normalizeOutput_parts (body : Bytes) (typeCode length : UInt64) (isTable : Bool) :
    (normalizeOutput { tag := "qvalue", bytesValue := some body, typeCode := some typeCode, length := some length,
                       isTable := some isTable } : Except ConversionError (JsValue A)) =
      qValueFromNative (some body) (some typeCode) (some length) (some isTable) := rfl

theorem normalizeInput_parts (state : QValueState) : normalizeInput (.qvalue state : JsValue A) =
    .ok { tag := "qvalue", bytesValue := some state.body, typeCode := some state.typeCode, length := some state.length,
          isTable := some state.isTable } := rfl

theorem normalizeOutput_qvalue {value : QValue} (hlen : value.len < 2 ^ 53) :
    (normalizeOutput (qvalueObject value) : Except ConversionError (JsValue A)) = .ok (.qvalue (stateOf value)) := by
  obtain ⟨hlow, hhigh⟩ := value.typeCode_bounds
  have hone := F64.one_pos
  have hcode : isInteger (F64.ofInt value.typeCode) = true := by
    rw [isInteger, F64.hasFraction_ofInt (by omega)]
    rfl
  have hcount : (value.len : Int).natAbs < 2 ^ 53 := hlen
  obtain ⟨-, -, hvalue⟩ := F64.ofInt_spec hcount
  have hsafe : isSafeInteger (F64.ofInt value.len) = true := by
    rw [isSafeInteger, isInteger, F64.hasFraction_ofInt hcount, hvalue, Int.natAbs_mul, Int.natAbs_natCast, Int.natAbs_natCast]
    simpa using Nat.mul_le_mul_right _ (by omega : value.len ≤ 2 ^ 53 - 1)
  have hpositive : 0 ≤ F64.value (F64.ofInt value.len) := by
    rw [hvalue]
    exact Int.mul_nonneg (by omega) (by omega)
  rw [qvalueObject, normalizeOutput_parts, qValueFromNative, hcode, hsafe]
  simp only [Bool.true_and, decide_eq_true_eq, hpositive, if_true, stateOf]

theorem sentAs_qvalue {env : Packages} {value : QValue} (hlen : value.len < 2 ^ 53) {k : K} :
    sentAs env (.qvalue (stateOf value) : JsValue A) = .ok k ↔
      env.ownedValueSize + 6 + value.bytes.length ≤ Node.maxSnapshotBytes ∧ k = .QValue value := by
  have hnative : normalizeInput (.qvalue (stateOf value) : JsValue A) = .ok (qvalueObject value) := by
    rw [normalizeInput_parts, stateOf, qvalueObject]
  rw [sentAs, hnative]
  simp only [facade, binding, bind_eq_ok, mapError_eq_ok, Except.ok.injEq, exists_eq_left',
    Node.snapshotNativeValue_qvalue env hlen]
  constructor
  · rintro ⟨owned, ⟨hfits, rfl⟩, hk⟩
    rw [Node.intoK_qvalueOwned] at hk
    exact ⟨hfits, (Except.ok.inj hk).symm⟩
  · rintro ⟨hfits, rfl⟩
    exact ⟨_, ⟨hfits, rfl⟩, Node.intoK_qvalueOwned env value⟩

/-- **A lossless value stands for what was sent.** Whatever value a frame was made of, the lossless
decoder hands out its body under the message's type, unless it is nested too deep; and from then on
the lossless value is serialized into the very frames of the value itself, as far as the snapshot's
budget holds it. -/
theorem lossless_stands_for (env : Packages) (categories : CategoricalMapping) (encoding : SymbolEncoding)
    (messageType : MsgType) (compress : Bool) (value : JsValue A) (k : K) (frame : Bytes)
    (hsent : sentAs env value = .ok k) (h : serializeAsIpcBytes6 env messageType compress value = .ok frame) :
    (k.wireDepth ≤ Xqdb.maxValueDepth → ∃ state : QValueState,
      deserializeIpcBytes6 env categories encoding true frame = .ok (messageType, (.qvalue state : JsValue A)) ∧
      k.serialize = .ok state.body ∧
      ∀ messageType' compress' frame',
        serializeAsIpcBytes6 env messageType' compress' (.qvalue state : JsValue A) = .ok frame' ↔
          env.ownedValueSize + 6 + state.body.length ≤ Node.maxSnapshotBytes ∧
            serializeAsIpcBytes6 env messageType' compress' value = .ok frame') ∧
    (Xqdb.maxValueDepth < k.wireDepth → ∃ e,
      (deserializeIpcBytes6 env categories encoding true frame : Except Rejection (MsgType × JsValue A)) = .error e) := by
  have hframe : generateJ6IpcMsg messageType compress k = .ok frame := by
    obtain ⟨k', hk', hframe⟩ := serializeAsIpcBytes6_iff.mp h
    obtain rfl := Except.ok.inj (hsent.symm.trans hk')
    exact hframe
  obtain ⟨body, hbody, hdecode⟩ := Connector.deserializeIpcFrame_generated categories encoding .Lossless hframe
  obtain ⟨body', hbody', hsmall, -⟩ := generateJ6IpcMsg_iff.mp hframe
  obtain rfl := Except.ok.inj (hbody.symm.trans hbody')
  have hview := @toOption_deserializeIpcBytes6 A env categories encoding frame true
  rw [if_pos rfl, hdecode, Connector.decodeValueBody] at hview
  constructor
  · intro hdepth
    obtain ⟨q, hq⟩ := (K.fromBytes_of_serialize hbody).mpr hdepth
    have hbytes : q.bytes = body := QValue.fromBytes_eq_ok.mp hq
    have hlen : q.len < 2 ^ 53 := by
      have hle := q.len_le
      rw [hbytes] at hle
      omega
    have hshown : shown env (.QValue q) 0 = some (.qvalue (stateOf q) : JsValue A) := by
      obtain ⟨native, hnative, hobject⟩ := Outcome.map_eq_ok.mp (Node.kIntoNative_qvalue env q)
      exact shown_of native hnative (hobject ▸ normalizeOutput_qvalue hlen)
    refine ⟨stateOf q, ?_, by rw [stateOf, hbytes, hbody], ?_⟩
    · rw [hq, Exec.ok_bind, Except.map, toOption_ok, Option.bind_some, hshown, Option.map_some] at hview
      exact toOption_eq_some.mp hview
    · intro messageType' compress' frame'
      have hisize : (2 : Nat) ^ 40 < isizeMax := by decide
      have hqvalue := @K.serialize_qvalue q (by rw [hbytes]; omega)
      have hsame : (K.QValue q).serialize = k.serialize := by rw [hqvalue, hbody, hbytes]
      simp only [serializeAsIpcBytes6_iff, sentAs_qvalue hlen, hsent, Except.ok.injEq, exists_eq_left']
      constructor
      · rintro ⟨_, ⟨hfits, rfl⟩, hframe'⟩
        exact ⟨hfits, (Connector.generateJ6IpcMsg_congr hsame).mp hframe'⟩
      · rintro ⟨hfits, hframe'⟩
        exact ⟨_, ⟨hfits, rfl⟩, (Connector.generateJ6IpcMsg_congr hsame).mpr hframe'⟩
  · intro hdepth
    rcases Connector.outcome_cases (QValue.fromBytes_noPanic body) with ⟨q, hq⟩ | ⟨e, he⟩
    · exact absurd ((K.fromBytes_of_serialize hbody).mp ⟨q, hq⟩) (Nat.not_le.mpr hdepth)
    · rw [he] at hview
      exact toOption_eq_none.mp hview

theorem lossless_stands_for_pair :
    let value : JsValue noArrow := .array [.boolean true, .string (ascii "q")]
    ∃ frame state, serializeAsIpcBytes6 leapDayPackages .Response true value = .ok frame ∧
      deserializeIpcBytes6 leapDayPackages numberedTexts .Lossy true frame =
        .ok (.Response, (.qvalue state : JsValue noArrow)) ∧
      serializeAsIpcBytes6 leapDayPackages .Response true (.qvalue state : JsValue noArrow) = .ok frame := by
  intro value
  have hsent : sentAs leapDayPackages value = .ok (.MixedList [.Boolean true, .Symbol (utf8Of (ascii "q"))]) := rfl
  have hok : (serializeAsIpcBytes6 leapDayPackages .Response true value).toOption.isSome = true := by decide +kernel
  obtain ⟨frame, hframe⟩ := Option.isSome_iff_exists.mp hok
  rw [toOption_eq_some] at hframe
  obtain ⟨state, hstate, hbody, hstands⟩ := (lossless_stands_for leapDayPackages numberedTexts .Lossy .Response true value _
    frame hsent hframe).1 (by decide)
  have hbytes : (K.MixedList [.Boolean true, .Symbol (utf8Of (ascii "q"))]).serialize =
      .ok [0, 0, 2, 0, 0, 0, 0xFF, 1, 0xF5, 0x71, 0] := by decide +kernel
  have hsame : _ = state.body := Except.ok.inj (hbytes.symm.trans hbody)
  exact ⟨frame, state, hframe, hstate, (hstands .Response true frame).mpr ⟨by rw [← hsame]; decide, hframe⟩⟩

end Js

end Xqdb
