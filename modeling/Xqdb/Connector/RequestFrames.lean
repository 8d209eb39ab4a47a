import Xqdb.Connector.Notifications
import Xqdb.EncoderGrammar
import Xqdb.QValue.Compose

/-! What a request looks like on the wire. The length in the header is computed before
anything is written, so it is compared here with what is written: the text of the expression,
alone or as the first member of a general list, and behind it the arguments. -/

namespace Xqdb.Connector

open Compression (lengthField)
open QValue (Wire)

/-- A text as a character vector. -/
def textVector (text : Bytes) : Bytes := [10, 0] ++ LittleEndian.encode 4 text.length ++ text

/-- The expression in front of arguments: a lambda has an empty context before its source. -/
def functionBytes (expr : List Char) : Bytes :=
  (if isLambda expr then [100, 0] else []) ++ textVector (exprBytes expr)

/-- The body of a request with the serialized arguments `parts`. -/
def requestBody (expr : List Char) (parts : List Bytes) : Bytes :=
  if parts = [] then textVector (exprBytes expr)
  else [0, 0] ++ LittleEndian.encode 4 (1 + parts.length) ++ functionBytes expr ++ parts.flatten

/-! ## The arguments -/

theorem addArgumentLengths_eq_ok {args : List K} {start length : Nat}
    (h : addArgumentLengths start args = .ok length) : ∀ arg ∈ args, ∃ n, arg.j6Len = .ok n := by
  induction args generalizing start with
  | nil => simp
  | cons arg args ih =>
    rw [addArgumentLengths, Exec.bind_eq_ok] at h
    obtain ⟨n, hn, h⟩ := h
    rw [Exec.bind_eq_ok] at h
    obtain ⟨next, -, h⟩ := h
    exact List.forall_mem_cons.mpr ⟨⟨n, hn⟩, ih h⟩

theorem serializeArguments_eq_ok {args : List K} {frame out : Bytes} (h : serializeArguments frame args = .ok out) :
    ∃ parts, List.Forall₂ (fun arg part => K.appended arg = .ok part) args parts ∧ out = frame ++ parts.flatten := by
  induction args generalizing frame with
  | nil =>
    obtain rfl := Except.ok.inj h
    exact ⟨[], .nil, by simp⟩
  | cons arg args ih =>
    rw [serializeArguments, Exec.bind_eq_ok] at h
    obtain ⟨next, hnext, h⟩ := h
    rw [K.serializeInto, Exec.bind_eq_ok] at hnext
    obtain ⟨part, hpart, hnext⟩ := hnext
    obtain rfl := Except.ok.inj hnext
    obtain ⟨parts, hparts, rfl⟩ := ih h
    exact ⟨part :: parts, .cons hpart hparts, by simp⟩

/-- What is appended for an argument is what it serializes to on its own. -/
theorem serializations {args : List K} {parts : List Bytes} (hlengths : ∀ arg ∈ args, ∃ n, arg.j6Len = .ok n)
    (hsize : parts.flatten.length ≤ isizeMax)
    (h : List.Forall₂ (fun arg part => K.appended arg = .ok part) args parts) :
    List.Forall₂ (fun arg part => K.serialize arg = .ok part) args parts := by
  induction h with
  | nil => exact .nil
  | @cons arg part args parts hpart _ ih =>
    obtain ⟨⟨n, hn⟩, hrest⟩ := List.forall_mem_cons.mp hlengths
    rw [List.flatten_cons, List.length_append] at hsize
    have hlength : part.length = n := by
      obtain ⟨bytes, hbytes, hlength⟩ | ⟨herr, -⟩ := K.j6LenWithDepth_exact arg hn
      · obtain rfl := Except.ok.inj (hpart.symm.trans hbytes)
        exact hlength
      · cases hpart.symm.trans herr
    exact .cons (K.serialize_eq_ok.mpr ⟨⟨n, hn, by omega⟩, hpart⟩) (ih hrest (by omega))

/-! ## The frame -/

theorem i32Length_eq_ok {length : Nat} {bytes : Bytes} (h : i32Length length = .ok bytes) :
    length ≤ i32Max ∧ bytes = LittleEndian.encode 4 length := by
  rw [i32Length] at h
  by_cases hle : length ≤ i32Max
  · rw [if_pos hle] at h
    exact ⟨hle, (Except.ok.inj h).symm⟩
  · rw [if_neg hle] at h
    cases h

theorem requestBodyLength_eq_ok {expr : List Char} {args : List K} {length : Nat}
    (h : requestBodyLength expr args = .ok length) : ∀ arg ∈ args, ∃ n, arg.j6Len = .ok n := by
  rw [requestBodyLength] at h
  by_cases hnone : args = []
  · rw [hnone]
    simp
  · rw [if_neg hnone, Exec.bind_eq_ok] at h
    obtain ⟨start, -, h⟩ := h
    exact addArgumentLengths_eq_ok h

theorem appendRequest_eq_ok {front : Bytes} {expr : List Char} {args : List K} {out : Bytes}
    (h : appendRequest front (LittleEndian.encode 4 (exprBytes expr).length) expr args = .ok out) :
    ∃ parts, List.Forall₂ (fun arg part => K.appended arg = .ok part) args parts ∧
      out = front ++ requestBody expr parts := by
  rw [appendRequest] at h
  by_cases hnone : args = []
  · rw [if_pos hnone] at h
    obtain rfl := Except.ok.inj h
    rw [hnone]
    exact ⟨[], .nil, rfl⟩
  · rw [if_neg hnone, Exec.bind_eq_ok] at h
    obtain ⟨count, hcount, h⟩ := h
    obtain ⟨-, rfl⟩ := i32Length_eq_ok hcount
    obtain ⟨parts, hparts, rfl⟩ := serializeArguments_eq_ok h
    have hlength : args.length + 1 = 1 + parts.length := by
      rw [hparts.length_eq, Nat.add_comm]
    have hsome : parts ≠ [] := by
      rintro rfl
      exact hnone (List.forall₂_nil_right_iff.mp hparts)
    refine ⟨parts, hparts, ?_⟩
    rw [requestBody, if_neg hsome, functionBytes, textVector, hlength]
    simp only [List.append_assoc]

/-- The body of a frame that is laid out behind a header. -/
theorem requestFrame_body {msgType : MsgType} {expr : List Char} {args : List K} {frame : Bytes}
    (h : requestFrame msgType expr args = .ok frame) :
    ∃ parts, List.Forall₂ (fun arg part => K.serialize arg = .ok part) args parts ∧
      frame = layFrame 1 msgType.toByte 0 (requestBody (trim expr) parts) ∧ frame.length < 2 ^ 40 ∧
      (exprBytes (trim expr)).length ≤ i32Max := by
  obtain ⟨hlaid, hleast, hsmall⟩ := requestFrame_eq_ok h
  rw [requestFrame] at h
  obtain ⟨expressionLength, hexpression, h⟩ := Exec.bind_eq_ok.mp h
  obtain ⟨bodyLength, hbody, h⟩ := Exec.bind_eq_ok.mp h
  obtain ⟨length, -, h⟩ := Exec.bind_eq_ok.mp h
  obtain ⟨built, hbuilt, h⟩ := Exec.bind_eq_ok.mp h
  by_cases hdiffers : built.length ≠ length.1
  · rw [if_pos hdiffers] at h
    cases h
  rw [if_neg hdiffers] at h
  obtain rfl := Except.ok.inj h
  obtain ⟨hexpr, rfl⟩ := i32Length_eq_ok hexpression
  obtain ⟨parts, hparts, hout⟩ := appendRequest_eq_ok hbuilt
  have hheader : ([1, msgType.toByte, 0, length.2.1] ++ LittleEndian.encode 4 length.2.2 : Bytes).length = 8 := by simp
  have hdrop : built.drop 8 = requestBody (trim expr) parts := by
    rw [hout]
    exact List.drop_left' hheader
  rw [hdrop] at hlaid
  have hsize : parts.flatten.length ≤ isizeMax := by
    have hlength : built.length = 8 + (requestBody (trim expr) parts).length := by
      rw [hout, List.length_append, hheader]
    by_cases hnone : parts = []
    · rw [hnone]
      exact Nat.zero_le _
    · rw [requestBody, if_neg hnone, List.length_append] at hlength
      rw [isizeMax]
      omega
  exact ⟨parts, serializations (requestBodyLength_eq_ok hbody) hsize hparts, hlaid, hsmall, hexpr⟩

/-! ## The body as a lossless value -/

theorem textVector_wire (text : Bytes) : textVector text = (Wire.fixedList 10 0 text.length text).encode := by
  simp [textVector, Wire.encode, listHeader_plain]

/-- The tree of the function: a lambda with an empty context, or its text. -/
def functionWire (expr : List Char) : Wire :=
  if isLambda expr then .lambda [] (exprBytes expr)
  else .fixedList 10 0 (exprBytes expr).length (exprBytes expr)

theorem functionWire_encode (expr : List Char) : (functionWire expr).encode = functionBytes expr := by
  rw [functionWire, functionBytes]
  by_cases hlambda : isLambda expr = true
  · rw [if_pos hlambda, if_pos hlambda]
    rfl
  · rw [if_neg hlambda, if_neg hlambda, textVector_wire]
    rfl

theorem textWire_wf {text : Bytes} (h : text.length ≤ i32Max) : (Wire.fixedList 10 0 text.length text).WF :=
  ⟨by decide, by decide, by decide, by decide, headerOk_plain.mpr h, (Nat.mul_one _).symm, fun h => absurd h (by decide)⟩

theorem functionWire_wf {expr : List Char} (h : (exprBytes expr).length ≤ i32Max) :
    (functionWire expr).WF ∧ (functionWire expr).depth ≤ 1 := by
  rw [functionWire]
  by_cases hlambda : isLambda expr = true
  · have hshort : (exprBytes expr).length < 2 ^ 31 := by
      rw [i32Max] at h
      omega
    rw [if_pos hlambda]
    exact ⟨⟨List.not_mem_nil, hshort⟩, Nat.le_refl _⟩
  · rw [if_neg hlambda]
    exact ⟨textWire_wf h, Nat.zero_le _⟩

/-- A well-formed tree that is not too deep is a value. -/
theorem exists_value {wire : Wire} (hwf : wire.WF) (hdepth : wire.depth ≤ 64) (hsize : wire.encode.length ≤ usizeMax) :
    ∃ value : QValue, value.bytes = wire.encode ∧ value.metadata = wire.metadata :=
  ⟨⟨wire.encode, wire.metadata, QValue.validate_encode hwf hdepth hsize, hsize⟩, rfl, rfl⟩

theorem exists_values {parts : List Bytes}
    (h : ∀ part ∈ parts, ∃ value, QValue.fromBytes part = .ok value ∧ value.maxDepth < maxValueDepth) :
    ∃ values : List QValue, values.map QValue.bytes = parts ∧ ∀ value ∈ values, value.maxDepth < maxValueDepth := by
  induction parts with
  | nil => exact ⟨[], rfl, by simp⟩
  | cons part parts ih =>
    obtain ⟨⟨value, hvalue, hdepth⟩, hrest⟩ := List.forall_mem_cons.mp h
    obtain ⟨values, rfl, hvalues⟩ := ih hrest
    refine ⟨value :: values, ?_, List.forall_mem_cons.mpr ⟨hdepth, hvalues⟩⟩
    rw [List.map_cons, QValue.fromBytes_eq_ok.mp hvalue]

theorem requestBody_value {expr : List Char} {parts : List Bytes} (hexpr : (exprBytes expr).length ≤ i32Max)
    (hcount : parts.length < i32Max) (hsize : (requestBody expr parts).length ≤ usizeMax)
    (hparts : ∀ part ∈ parts, ∃ value, QValue.fromBytes part = .ok value ∧ value.maxDepth < maxValueDepth) :
    ∃ value, QValue.fromBytes (requestBody expr parts) = .ok value ∧
      (parts ≠ [] → value.typeCode = 0 ∧ value.len = 1 + parts.length) := by
  by_cases hnone : parts = []
  · rw [requestBody, if_pos hnone, textVector_wire] at hsize ⊢
    obtain ⟨value, hbytes, -⟩ := exists_value (textWire_wf hexpr) (by simp [Wire.depth]) hsize
    exact ⟨value, QValue.fromBytes_eq_ok.mpr hbytes, fun hsome => absurd hnone hsome⟩
  · obtain ⟨values, rfl, hdepths⟩ := exists_values hparts
    rw [requestBody, if_neg hnone, ← functionWire_encode] at hsize ⊢
    obtain ⟨hwf, hdepth⟩ := functionWire_wf hexpr
    have hfunction : (functionWire expr).encode.length ≤ usizeMax := by
      simp only [List.length_append] at hsize
      omega
    obtain ⟨function, hbytes, hmetadata⟩ := exists_value hwf (by omega) hfunction
    have hlist : [0, 0] ++ LittleEndian.encode 4 (1 + (values.map QValue.bytes).length) ++ (functionWire expr).encode ++
        (values.map QValue.bytes).flatten = QValue.listBytes (function :: values) := by
      rw [QValue.listBytes, List.flatMap_cons, hbytes, List.length_map, List.length_cons, Nat.add_comm 1,
        ← List.flatMap_def, List.append_assoc]
    rw [hlist] at hsize ⊢
    have hall : ∀ value ∈ function :: values, value.maxDepth < maxValueDepth := by
      refine List.forall_mem_cons.mpr ⟨?_, hdepths⟩
      have hlevel : function.maxDepth = (functionWire expr).depth := by rw [QValue.maxDepth, hmetadata, Wire.metadata]
      rw [hlevel, maxValueDepth]
      omega
    rw [List.length_map] at hcount
    have hvalid := QValue.validate_listBytes (by rw [List.length_cons]; omega) hall hsize
    refine ⟨⟨_, _, hvalid, hsize⟩, QValue.fromBytes_eq_ok.mpr rfl, ?_⟩
    intro _
    refine ⟨rfl, ?_⟩
    rw [List.length_map, Nat.add_comm]
    rfl

/-! ## What `send` writes -/

theorem sendInner_arguments {config : Config} {outside : Outside} {msgType : MsgType} {expr : List Char} {args : List K}
    {c c' : Connector} (h : sendInner config outside msgType expr args c = (.ok (), c')) : args.length ≤ 8 := by
  by_contra hmany
  rw [sendInner] at h
  split at h
  · cases h
  · by_cases hversion : config.version > 6
    · rw [if_pos hversion] at h
      cases h
    · rw [if_neg hversion, if_pos (by omega)] at h
      cases h

/-- **A request is one exact frame** when compression is off: the header with the message type
and the length, the text of the trimmed expression, alone or as the first of a general list,
and the serialized arguments. If these are lossless values, so is the body. -/
theorem request_framing_exact (config : Config) (outside : Outside) (msgType : MsgType) (expr : List Char)
    (args : List K) (c c' : Connector) (hoff : config.settings.compression = .Off)
    (hsent : sendInner config outside msgType expr args c = (.ok (), c')) :
    ∃ connection frame parts, c.stream = some connection ∧
      c' = { c with stream := some { connection with log := connection.log ++ [.wrote frame] } } ∧
      List.Forall₂ (fun arg part => K.serialize arg = .ok part) args parts ∧
      frame = layFrame 1 msgType.toByte 0 (requestBody (trim expr) parts) ∧
      frame.length < 2 ^ 40 ∧ lengthField frame = frame.length ∧
      ((∀ part ∈ parts, ∃ value, QValue.fromBytes part = .ok value ∧ value.maxDepth < maxValueDepth) →
        ∃ value, QValue.fromBytes (frame.drop 8) = .ok value ∧
          (args ≠ [] → value.typeCode = 0 ∧ value.len = 1 + args.length)) := by
  have harguments := sendInner_arguments hsent
  obtain ⟨-, connection, frame, hstream, hpayload, rfl⟩ := sendInner_ok hsent
  rw [requestPayload, Exec.bind_eq_ok] at hpayload
  obtain ⟨built, hbuilt, hpayload⟩ := hpayload
  have hplain : ¬ shouldCompress config built.length = true := by
    rw [shouldCompress, hoff]
    exact Bool.false_ne_true
  rw [if_neg hplain] at hpayload
  obtain rfl := Except.ok.inj hpayload
  obtain ⟨parts, hparts, hframe, hsmall, hexpr⟩ := requestFrame_body hbuilt
  have hlength := hparts.length_eq
  have hbody : built.drop 8 = requestBody (trim expr) parts := by
    rw [hframe, drop_layFrame]
  have hsize : 8 + (requestBody (trim expr) parts).length = built.length := by
    rw [hframe, layFrame_length]
  refine ⟨connection, built, parts, hstream, rfl, hparts, hframe, hsmall, ?_, ?_⟩
  · have hfield := lengthField_layFrame 1 msgType.toByte 0 (requestBody (trim expr) parts) (by omega)
    rwa [← hframe] at hfield
  · intro hvalid
    have hcount : parts.length < i32Max := by
      rw [← hlength, i32Max]
      omega
    obtain ⟨value, hvalue, hmembers⟩ :=
      requestBody_value hexpr hcount (by rw [usizeMax]; omega) hvalid
    refine ⟨value, hbody ▸ hvalue, ?_⟩
    intro hsome
    rw [hlength]
    apply hmembers
    rintro rfl
    exact hsome (List.forall₂_nil_right_iff.mp hparts)

/-- A lambda with one argument, on a fresh connection. -/
theorem request_framing_exact_lambda :
    let config : Config := ⟨[], [], 6, true, .Strict, ⟨.Native, .Off, 10000000, none, 1024⟩⟩
    let outside : Outside := ⟨.ok [], none, none, none, false⟩
    let c : Connector := { new with stream := some ⟨[], [], []⟩ }
    let frame : Bytes := [1, 1, 0, 0, 27, 0, 0, 0, 0, 0, 2, 0, 0, 0, 100, 0, 10, 0, 3, 0, 0, 0, 123, 120, 125, 252, 7]
    let expr : List Char := [' ', '\x7b', 'x', '\x7d']
    sendInner config outside .Sync expr [.U8 7] c =
        (.ok (), { c with stream := some ⟨[], [], [.wrote frame]⟩ }) ∧
      ∃ written parts, List.Forall₂ (fun arg part => K.serialize arg = .ok part) [.U8 7] parts ∧
        written = layFrame 1 MsgType.Sync.toByte 0 (requestBody (trim expr) parts) ∧
        lengthField written = written.length := by
  intro config outside c frame expr
  have hsent : sendInner config outside .Sync expr [.U8 7] c =
      (.ok (), { c with stream := some ⟨[], [], [.wrote frame]⟩ }) := by
    unfold expr frame c outside config
    rfl
  obtain ⟨_, written, parts, -, -, hparts, hwritten, -, hlength, -⟩ :=
    request_framing_exact config outside .Sync expr [.U8 7] c _ rfl hsent
  exact ⟨hsent, written, parts, hparts, hwritten, hlength⟩

end Xqdb.Connector
