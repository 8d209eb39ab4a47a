import Xqdb.Connector.Dialogue
import Xqdb.Js.Shown

/-! `serializeAsIpcBytes6` and `deserializeIpcBytes6` of `js-xqdb/src/helpers.ts`, with the operations of
`utility.rs` behind them: from a JavaScript value to the bytes of a message and back. -/

namespace Xqdb
namespace Js

open Node (Packages DtoError kIntoNative kIntoNativeWithDepth toJs utf8Of)
open Connector (ValueMode generateJ6IpcMsg deserializeIpcFrame)
open Outcome (bind_eq_ok pure_eq_ok mapError_eq_ok toOption_pure toOption_bind toOption_mapError toOption_eq_some)

variable {A : Arrow}

/-! ## The helpers -/

/-- Why a promise is rejected: the facade throws, or the binding returns an error, which the facade
throws under its code. -/
inductive Rejection where
  | thrown (error : ConversionError)
  | native (error : DtoError)
  deriving DecidableEq

def facade {α : Type} (result : Except ConversionError α) : Except Rejection α := result.mapError .thrown

def binding {α : Type} (result : Except DtoError α) : Except Rejection α := result.mapError .native

/-- `UtilityOperation::Serialize`. -/
def serializeOperation (env : Packages) (messageType : MsgType) (compress : Bool) (value : NativeObject) :
    Except DtoError NativeObject := do
  let owned ← Node.snapshotNativeValue env.toNapi value
  let k ← Node.intoK env owned
  let bytes ← Node.fromExec (generateJ6IpcMsg messageType compress k)
  let native ← kIntoNative env (.CharVector bytes)
  return toJs native

/-- `UtilityOperation::DeserializeIpc`. -/
def deserializeIpcOperation (env : Packages) (categories : CategoricalMapping) (encoding : SymbolEncoding) (mode : ValueMode)
    (frame : Bytes) : Except DtoError (MsgType × NativeObject) := do
  let message ← Node.fromExec (deserializeIpcFrame categories encoding mode frame)
  let native ← kIntoNative env message.2
  return (message.1, toJs native)

/-- `serializeAsIpcBytes6`. -/
def serializeAsIpcBytes6 (env : Packages) (messageType : MsgType) (compress : Bool) (value : JsValue A) :
    Except Rejection Bytes := do
  let native ← facade (normalizeInput value)
  let result ← binding (serializeOperation env messageType compress native)
  let output ← facade (@normalizeOutput A result)
  match output with
  | .bytes bytes => return bytes
  | _ => facade (conversionError "serializeAsIpcBytes6 returned a native value that was not bytes")

/-- `deserializeIpcBytes6`. -/
def deserializeIpcBytes6 (env : Packages) (categories : CategoricalMapping) (encoding : SymbolEncoding) (lossless : Bool)
    (frame : Bytes) : Except Rejection (MsgType × JsValue A) := do
  let result ← binding (deserializeIpcOperation env categories encoding (if lossless then .Lossless else .Native) frame)
  let value ← facade (normalizeOutput result.2)
  return (result.1, value)

/-! ## What they come to -/

theorem toOption_fromExec {α : Type} (result : Exec α) : (Node.fromExec result).toOption = result.toOption := by
  cases result with
  | error e => rfl
  | ok a => rfl

theorem fromExec_eq_ok {α : Type} {result : Exec α} {a : α} : Node.fromExec result = .ok a ↔ result = .ok a := by
  rw [← toOption_eq_some, toOption_fromExec, toOption_eq_some]

section Runs

variable {env : Packages} {categories : CategoricalMapping} {encoding : SymbolEncoding} {messageType : MsgType}
  {compress : Bool} {value : JsValue A} {frame : Bytes}

/-- The bytes of a value: what the facade, the snapshot, the client and the encoder make of it. -/
theorem serializeAsIpcBytes6_eq_ok :
    serializeAsIpcBytes6 env messageType compress value = .ok frame ↔
      ∃ native owned k, normalizeInput value = .ok native ∧ Node.snapshotNativeValue env.toNapi native = .ok owned ∧
        Node.intoK env owned = .ok k ∧ generateJ6IpcMsg messageType compress k = .ok frame := by
  have hbytes (bytes : Bytes) : kIntoNative env (.CharVector bytes) = .ok { tag := "bytes", bytesValue := some bytes } := by
    rw [kIntoNative, kIntoNativeWithDepth, Node.checkDepth_ok (Nat.zero_le _)]
    rfl
  have hoperation {native result : NativeObject} : serializeOperation env messageType compress native = .ok result ↔
      ∃ owned k bytes, Node.snapshotNativeValue env.toNapi native = .ok owned ∧ Node.intoK env owned = .ok k ∧
        generateJ6IpcMsg messageType compress k = .ok bytes ∧ toJs { tag := "bytes", bytesValue := some bytes } = result := by
    simp only [serializeOperation, bind_eq_ok, fromExec_eq_ok, hbytes, Except.ok.injEq, pure_eq_ok, exists_eq_left',
      exists_and_left]
  have houtput (bytes : Bytes) : @normalizeOutput A (toJs { tag := "bytes", bytesValue := some bytes }) = .ok (.bytes bytes) := rfl
  constructor
  · intro h
    obtain ⟨native, hnative, h⟩ := bind_eq_ok.mp h
    obtain ⟨result, hresult, h⟩ := bind_eq_ok.mp h
    obtain ⟨owned, k, bytes, howned, hk, hframe, rfl⟩ := hoperation.mp (mapError_eq_ok.mp hresult)
    rw [houtput] at h
    obtain rfl : bytes = frame := Except.ok.inj h
    exact ⟨native, owned, k, mapError_eq_ok.mp hnative, howned, hk, hframe⟩
  · rintro ⟨native, owned, k, hnative, howned, hk, hframe⟩
    have hresult := hoperation.mpr ⟨owned, k, frame, howned, hk, hframe, rfl⟩
    rw [serializeAsIpcBytes6, hnative]
    refine bind_eq_ok.mpr ⟨native, rfl, bind_eq_ok.mpr ⟨_, mapError_eq_ok.mpr hresult, ?_⟩⟩
    rw [houtput]
    rfl

theorem toOption_deserializeIpcBytes6 (lossless : Bool) :
    (deserializeIpcBytes6 env categories encoding lossless frame : Except Rejection (MsgType × JsValue A)).toOption =
      (deserializeIpcFrame categories encoding (if lossless then .Lossless else .Native) frame).toOption.bind
        fun message => (shown env message.2 0).map (message.1, ·) := by
  rw [deserializeIpcBytes6, deserializeIpcOperation]
  simp only [binding, facade, toOption_bind, toOption_mapError, toOption_fromExec, toOption_pure, shown, kIntoNative]
  cases (deserializeIpcFrame categories encoding (if lossless then .Lossless else .Native) frame).toOption with
  | none => rfl
  | some message =>
    simp only [Option.bind_some]
    cases (kIntoNativeWithDepth env message.2 0).toOption with
    | none => rfl
    | some native =>
      simp only [Option.bind_some]
      cases (@normalizeOutput A (toJs native)).toOption with
      | none => rfl
      | some value => rfl

end Runs

/-! ## There and back -/

/-- The decoder's view of a frame that was made of a value. -/
theorem shown_of_serialized {env : Packages} {categories : CategoricalMapping} {messageType : MsgType} {compress : Bool}
    {value : JsValue A} {frame : Bytes} (hiso : IsoDates env) (hconvenient : Convenient value) (horder : InOrder value)
    (hdepth : nesting value ≤ Xqdb.maxValueDepth) (h : serializeAsIpcBytes6 env messageType compress value = .ok frame) :
    (deserializeIpcBytes6 env categories .Strict false frame : Except Rejection (MsgType × JsValue A)).toOption =
      (comesBack env value).map (messageType, ·) := by
  obtain ⟨native, owned, k, hnative, howned, hk, hframe⟩ := serializeAsIpcBytes6_eq_ok.mp h
  obtain ⟨remaining, -, howned⟩ := bind_eq_ok.mp howned
  obtain ⟨⟨_, left⟩, htaken, hsame⟩ := bind_eq_ok.mp howned
  obtain rfl := pure_eq_ok.mp hsame
  have hdenotes := denotes_of_ok hconvenient hnative htaken hk
  obtain ⟨hplain, hkeys, hnesting⟩ := denotes_spec hdenotes
  obtain ⟨body, hbody, hdecode⟩ := Connector.deserializeIpcFrame_generated categories .Strict .Native hframe
  have hrun := @K.deserialize_yields categories k body hplain hkeys (hnesting ▸ hdepth) hbody
  have hshown := @shown_viewNorm A env 0 k hiso value hdenotes horder (by omega)
  rw [toOption_deserializeIpcBytes6, if_neg Bool.false_ne_true, hdecode, ← hshown, Connector.decodeValueBody]
  cases hnorm : k.viewNorm with
  | some v =>
    rw [hnorm] at hrun
    rw [hrun]
    rfl
  | none =>
    rw [hnorm] at hrun
    obtain ⟨e, he⟩ := hrun
    rw [he]
    rfl

/-- **What is serialized comes back**: `deserializeIpcBytes6` reads `comesBack` of the value out of
every frame that `serializeAsIpcBytes6` has made, compressed or not, and refuses the frame where the
value does not come back. What came back stays as it is from then on, unless it has turned into a
vector. -/
theorem helpers_round_trip (env : Packages) (categories : CategoricalMapping) (hiso : IsoDates env) (messageType : MsgType)
    (compress : Bool) (value : JsValue A) (frame : Bytes) (hconvenient : Convenient value) (horder : InOrder value)
    (hdepth : nesting value ≤ Xqdb.maxValueDepth) (h : serializeAsIpcBytes6 env messageType compress value = .ok frame) :
    (∀ result, deserializeIpcBytes6 env categories .Strict false frame = .ok result ↔
      ∃ back, comesBack env value = some back ∧ result = (messageType, back)) ∧
    ∀ back, comesBack env value = some back → Convenient back → ∀ messageType' compress' frame',
      serializeAsIpcBytes6 env messageType' compress' back = .ok frame' →
        deserializeIpcBytes6 env categories .Strict false frame' = .ok (messageType', back) := by
  constructor
  · intro result
    rw [← toOption_eq_some, shown_of_serialized hiso hconvenient horder hdepth h, Option.map_eq_some_iff]
    simp only [eq_comm]
  · intro back hback hconvenient' messageType' compress' frame' h'
    obtain ⟨horder', hle⟩ := comesBack_shape hback hconvenient' horder
    rw [← toOption_eq_some, shown_of_serialized hiso hconvenient' horder' (hle.trans hdepth) h',
      comesBack_stable hback hconvenient']
    rfl

/-- A calendar of one day. -/
def leapDay : NaiveDate := ⟨738945, by decide, by decide⟩

def leapDayPackages : Packages :=
  { Node.plainPackages with
    dateFormat := fun date => if date = leapDay then utf8Of (ascii "2024-02-29") else Node.plainDate date
    dateParseFromStr := fun text =>
      if text = utf8Of (ascii "2024-02-29") then .ok leapDay else .error "input contains invalid characters" }

theorem leapDayPackages_isoDates : IsoDates leapDayPackages := by
  intro text date _ hparse
  have hparse' : (if utf8Of text = utf8Of (ascii "2024-02-29") then Except.ok leapDay
      else .error "input contains invalid characters") = .ok date := hparse
  split at hparse'
  · next htext =>
    obtain rfl := Except.ok.inj hparse'
    exact htext.symm
  · cases hparse'

/-- Octets under a key and in a dictionary, a lone surrogate, and a day. -/
def mixedObject : JsValue noArrow :=
  .object [(ascii "1", .array [.boolean true, .bytes [0xFF]]), (ascii "day", .date (ascii "2024-02-29")),
    (ascii "half", .string [0xD83D]), (ascii "texts", .object [(ascii "a", .bytes [0x68, 0x69]), (ascii "b", .array [])])]

theorem helpers_round_trip_mixed :
    ∃ frame, serializeAsIpcBytes6 leapDayPackages .Async true mixedObject = .ok frame ∧
      deserializeIpcBytes6 leapDayPackages numberedTexts .Strict false frame =
        .ok (.Async, (.object [(ascii "1", .array [.boolean true, .bytes [0xFF]]), (ascii "day", .date (ascii "2024-02-29")),
          (ascii "half", .string [0xFFFD]), (ascii "texts", .object [(ascii "a", .string (ascii "hi")), (ascii "b", .string [])])] :
            JsValue noArrow)) := by
  have hok : (serializeAsIpcBytes6 leapDayPackages .Async true mixedObject).toOption.isSome = true := by decide +kernel
  obtain ⟨frame, hframe⟩ := Option.isSome_iff_exists.mp hok
  rw [toOption_eq_some] at hframe
  have hconvenient : Convenient mixedObject := by
    simp [mixedObject, Convenient, EntriesConvenient, AllConvenient]
  have horder : InOrder mixedObject := by
    simp only [mixedObject, InOrder, AllInOrder, EntriesInOrder]
    decide
  refine ⟨frame, hframe, ?_⟩
  exact ((helpers_round_trip leapDayPackages numberedTexts leapDayPackages_isoDates .Async true mixedObject frame hconvenient
    horder (by decide) hframe).1 _).mpr ⟨_, rfl, rfl⟩

end Js
end Xqdb
