import Xqdb.Connector.Session

/-! What `send` writes is one whole frame of the type it was asked for. -/

namespace Xqdb.Connector

open Compression (compress compress_cases lengthField byteAt compressedFrame compressedFrame_length
  lengthField_compressedFrame prefixMode prefixWidth pack)

theorem serializeArguments_appends (args : List K) :
    ∀ frame out, serializeArguments frame args = .ok out → frame <+: out := by
  induction args with
  | nil =>
    intro frame out h
    cases h
    exact List.prefix_rfl
  | cons value args ih =>
    intro frame out h
    obtain ⟨next, hnext, h⟩ := Exec.bind_eq_ok.mp h
    obtain ⟨bytes, -, hok⟩ := Exec.bind_eq_ok.mp hnext
    cases hok
    exact (List.prefix_append frame bytes).trans (ih _ _ h)

theorem checkedOutgoingMessageLength_eq_ok {bodyLength : Nat} {description : String}
    {length : Nat × UInt8 × Nat} (h : checkedOutgoingMessageLength bodyLength description = .ok length) :
    length.1 < 2 ^ 40 ∧ 8 ≤ length.1 ∧ length.2.1 = UInt8.ofNat (length.1 / 2 ^ 32) ∧
      length.2.2 = length.1 % 2 ^ 32 := by
  unfold checkedOutgoingMessageLength ipcLengthHeader maxIpcLengthField at h
  obtain ⟨total, htotal, h⟩ := Exec.bind_eq_ok.mp h
  obtain ⟨rfl, -⟩ := checkedAdd_eq_some.mp (Exec.okOr_eq_ok.mp htotal)
  split at h
  · cases h
  · rw [Exec.ok_bind] at h
    cases h
    simp only [ipcHeaderLength, and_true]
    unfold ipcHeaderLength at *
    omega

/-- A request starts with its header. -/
theorem requestFrame_eq_ok {msgType : MsgType} {expr : List Char} {args : List K} {frame : Bytes}
    (h : requestFrame msgType expr args = .ok frame) :
    frame = layFrame 1 msgType.toByte 0 (frame.drop 8) ∧ 8 ≤ frame.length ∧ frame.length < 2 ^ 40 := by
  unfold requestFrame at h
  obtain ⟨expressionLength, -, h⟩ := Exec.bind_eq_ok.mp h
  obtain ⟨bodyLength, -, h⟩ := Exec.bind_eq_ok.mp h
  obtain ⟨length, hlength, h⟩ := Exec.bind_eq_ok.mp h
  obtain ⟨built, hbuilt, h⟩ := Exec.bind_eq_ok.mp h
  split at h
  · cases h
  next hsame =>
  cases h
  obtain ⟨hsmall, hlong, hhigh, hlow⟩ := checkedOutgoingMessageLength_eq_ok hlength
  have htotal : frame.length = length.1 := not_not.mp hsame
  have hheader : [1, msgType.toByte, 0, length.2.1] ++ LittleEndian.encode 4 length.2.2 <+: frame := by
    unfold appendRequest at hbuilt
    dsimp only at hbuilt
    split at hbuilt
    · cases hbuilt
      exact List.prefix_append _ _
    · obtain ⟨count, -, hbuilt⟩ := Exec.bind_eq_ok.mp hbuilt
      exact (List.prefix_append _ _).trans (serializeArguments_appends args _ _ hbuilt)
  refine ⟨?_, by omega, by omega⟩
  obtain ⟨body, hbody⟩ := hheader
  have hlen : ([1, msgType.toByte, 0, length.2.1] ++ LittleEndian.encode 4 length.2.2 : Bytes).length = 8 := by
    simp
  have hdrop : frame.drop 8 = body := by
    rw [← hbody]
    exact List.drop_left' hlen
  have hsize : 8 + body.length = length.1 := by
    rw [← htotal, ← hbody, List.length_append, hlen]
  rw [hdrop, layFrame, hsize, ← hbody, hhigh, hlow, show (2 : Nat) ^ 32 = 256 ^ 4 from rfl,
    LittleEndian.encode_mod]

/-- Compression lays the frame out anew, with the same type. -/
theorem requestPayload_complete {config : Config} {msgType : MsgType} {expr : List Char} {args : List K}
    {payload : Bytes} (h : requestPayload config msgType expr args = .ok payload) :
    CompleteFrame payload ∧ byteAt payload 1 = msgType.toByte := by
  unfold requestPayload at h
  obtain ⟨frame, hframe, h⟩ := Exec.bind_eq_ok.mp h
  obtain ⟨hlaid, hlong, hsmall⟩ := requestFrame_eq_ok hframe
  have hplain : CompleteFrame frame ∧ byteAt frame 1 = msgType.toByte := by
    refine ⟨⟨hlong, ?_⟩, ?_⟩
    · have := lengthField_layFrame 1 msgType.toByte 0 (frame.drop 8) (by rw [List.length_drop]; omega)
      rwa [← hlaid] at this
    · rw [hlaid]
      rfl
  split at h
  · rcases compress_cases frame hsmall with hsame | ⟨order, kind, tail, gs, g, e, hcons, -, hrun, hfits, -⟩
    · obtain rfl : frame = payload := Except.ok.inj (hsame.symm.trans h)
      exact hplain
    · obtain rfl := Except.ok.inj (hrun.symm.trans h)
      have hlength := compressedFrame_length order kind (prefixMode frame.length) frame.length (pack (gs ++ [g]))
      refine ⟨⟨?_, ?_⟩, ?_⟩
      · rw [hlength, ipcHeaderLength]
        omega
      · exact lengthField_compressedFrame _ _ _ _ _ (by omega)
      · have hbyte := hplain.2
        rw [hcons] at hbyte
        exact hbyte
  · obtain rfl : frame = payload := Except.ok.inj h
    exact hplain

end Xqdb.Connector
