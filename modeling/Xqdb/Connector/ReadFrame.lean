import Xqdb.Connector.Receive
import Xqdb.Connector.Message

/-! What a read of `read_ipc_body` leaves behind on any stream: either it ends with an error,
or it has taken exactly one complete frame, pipelined or not. -/

namespace Xqdb.Connector

open Compression (lengthField byteAt)
open Incoming (content readSome readSome_content)
open Pipeline (Scope tableType receiveOutcome receiveOutcome_agrees receiveOutcome_starved SameOutcome receiptFailed)

/-- A successful exact read has taken what it was asked for. -/
theorem readExact_cases (want : Nat) (stream : QStream) :
    (∃ bytes rest, readExact want stream = .ok (bytes, rest) ∧ bytes.length = want ∧
      content stream = bytes ++ content rest) ∨
    (∃ e, readExact want stream = Exec.err e) ∧ (content stream).length < want := by
  by_cases hfull : want ≤ (content stream).length
  · obtain ⟨rest, hread, hrest⟩ := readExact_full hfull
    refine .inl ⟨_, rest, hread, ?_, ?_⟩
    · rw [List.length_take]
      omega
    · rw [hrest, List.take_append_drop]
  · exact .inr ⟨readExact_short (by omega), by omega⟩

/-- No body of the declared length at the start of `bytes` is acceptable. -/
def Unacceptable (header : ParsedIpcHeader) (maximum : Option Nat) (bodyLength : Nat) (bytes : Bytes) : Prop :=
  ∀ body more accepted, bytes = body ++ more → body.length = bodyLength →
    prepareIpcBody header body maximum ≠ .ok accepted

theorem Unacceptable.of_short {header : ParsedIpcHeader} {maximum : Option Nat} {bodyLength : Nat} {bytes : Bytes}
    (h : bytes.length < bodyLength) : Unacceptable header maximum bodyLength bytes := by
  rintro body more accepted rfl rfl
  rw [List.length_append] at h
  omega

section Frame

variable {runtime : Runtime} {maximum : Option Nat} {stream : QStream} {buffer : Buffer}
  {header : ParsedIpcHeader} {bodyLength : Nat}

/-- The rest of a body, from a buffer that holds its start. -/
theorem readWholeBody_outcome (hlead : buffer.bytes.length ≤ bodyLength) (hcapacity : 0 < buffer.capacity)
    (hsize : bodyLength ≤ isizeMax) :
    (∃ body kind prepared stream' buffer', body.length = bodyLength ∧
      buffer.bytes ++ content stream = body ++ content stream' ∧
      prepareIpcBody header body maximum = .ok (kind, prepared) ∧
      readWholeBody runtime.alloc header bodyLength maximum stream buffer =
        .ok (kind, .ofPrepared prepared, stream', buffer') ∧ buffer'.bytes = body) ∨
    (∃ e, readWholeBody runtime.alloc header bodyLength maximum stream buffer = Exec.err e) ∧
      Unacceptable header maximum bodyLength (buffer.bytes ++ content stream) := by
  by_cases hfull : bodyLength ≤ (buffer.bytes ++ content stream).length
  · obtain ⟨body, hbody⟩ : ∃ body, body = (buffer.bytes ++ content stream).take bodyLength := ⟨_, rfl⟩
    have hlength : body.length = bodyLength := by
      rw [hbody, List.length_take]
      omega
    have hsplit : buffer.bytes ++ content stream =
        body ++ (buffer.bytes ++ content stream).drop bodyLength := by
      rw [hbody, List.take_append_drop]
    subst hlength
    rcases @readWholeBody_cases runtime maximum stream buffer _ header body hlead hcapacity hsize hsplit with
      ⟨kind, prepared, stream', buffer', hprepared, hrun, hend, hbytes⟩ | ⟨herr, hnot⟩
    · rw [← hend] at hsplit
      exact .inl ⟨body, kind, prepared, stream', buffer', rfl, hsplit, hprepared, hrun, hbytes⟩
    · refine .inr ⟨herr, ?_⟩
      intro body' more accepted hother hlength
      obtain rfl : body' = body := (List.append_inj (hother.symm.trans hsplit) hlength).1
      exact hnot accepted
  · rw [List.length_append] at hfull
    obtain ⟨e, hshort⟩ := readMessageBody_short runtime.alloc hsize bodyLength stream buffer hcapacity
      (by omega) (by omega)
    refine .inr ⟨⟨e, by rw [readWholeBody, hshort, Exec.err_bind]⟩, .of_short ?_⟩
    rw [List.length_append]
    omega

/-- One read into the spare room of the buffer. -/
theorem readSomeInto_outcome (hroom : buffer.bytes.length < bodyLength)
    (hcapacity : bodyLength ≤ buffer.capacity) :
    (∃ stream' buffer', readSomeInto bodyLength stream buffer = .ok (stream', buffer') ∧
      buffer'.bytes ≠ [] ∧ buffer'.bytes.length ≤ bodyLength ∧ buffer.capacity ≤ buffer'.capacity ∧
      buffer.bytes ++ content stream = buffer'.bytes ++ content stream') ∨
    (∃ e, readSomeInto bodyLength stream buffer = Exec.err e) ∧ content stream = [] := by
  unfold readSomeInto
  dsimp only
  rcases readSome_content (min (buffer.capacity - buffer.bytes.length) (bodyLength - buffer.bytes.length))
    (by omega) stream with ⟨bytes, stream', hread, hne, hlen, hcontent⟩ | ⟨hnil, stop, stream', hread, hstop⟩
  · obtain ⟨b, rest, rfl⟩ := List.exists_cons_of_ne_nil hne
    rw [hread]
    refine .inl ⟨stream', buffer.extendFromSlice (b :: rest), rfl, ?_, ?_, extendFromSlice_capacity _ _, ?_⟩
    · simp [Buffer.extendFromSlice]
    · simp only [Buffer.extendFromSlice, List.length_append]
      omega
    · rw [hcontent]
      simp [Buffer.extendFromSlice]
  · rw [hread]
    rcases hstop with rfl | ⟨e, rfl⟩
    · exact .inr ⟨⟨_, rfl⟩, hnil⟩
    · exact .inr ⟨⟨_, rfl⟩, hnil⟩

/-- What a body that was accepted holds: its bytes are in the buffer or decompressed, or it
was a table that has been decoded on the way. -/
inductive Accepted (runtime : Runtime) (pipeline : Option SymbolEncoding) (body : Bytes)
    (prepared : PreparedBody) (buffer : Buffer) : IpcBody → Prop
  | whole (hbytes : buffer.bytes = body) : Accepted runtime pipeline body prepared buffer (.ofPrepared prepared)
  | decoded {encoding : SymbolEncoding} {result : Except XqdbError K} (hpipeline : pipeline = some encoding)
    (hprepared : prepared = .borrowed body) (hfirst : body.head? = some tableType)
    (hresult : SameOutcome result (deserialize runtime.categories encoding body)) :
    Accepted runtime pipeline body prepared buffer (.Decoded result)

/-- A table that is decoded while it arrives; its header has passed the bound. -/
theorem receivePipelined_outcome {encoding : SymbolEncoding} (hlead : buffer.bytes.length ≤ bodyLength)
    (hsize : bodyLength ≤ isizeMax) (hfirst : buffer.bytes.head? = some tableType) :
    (∃ body kind result stream', body.length = bodyLength ∧
      buffer.bytes ++ content stream = body ++ content stream' ∧ body.head? = some tableType ∧
      messageType header.messageKind = .ok kind ∧
      receivePipelined runtime encoding header bodyLength stream buffer =
        .ok (kind, .Decoded result, stream', buffer) ∧
      SameOutcome result (deserialize runtime.categories encoding body)) ∨
    (∃ e, receivePipelined runtime encoding header bodyLength stream buffer = Exec.err e) ∧
      Unacceptable header maximum bodyLength (buffer.bytes ++ content stream) := by
  unfold receivePipelined
  rcases outcome_cases (messageType_noPanic header.messageKind) with ⟨kind, hkind⟩ | ⟨e, hkind⟩
  · rw [hkind, Exec.ok_bind]
    dsimp only
    have hrun := runtime.complete stream buffer.bytes bodyLength encoding hsize hlead
    by_cases hfull : bodyLength ≤ (buffer.bytes ++ content stream).length
    · obtain ⟨body, hbody⟩ : ∃ body, body = (buffer.bytes ++ content stream).take bodyLength := ⟨_, rfl⟩
      have hlength : body.length = bodyLength := by
        rw [hbody, List.length_take]
        omega
      have hsplit : buffer.bytes ++ content stream =
          body ++ (buffer.bytes ++ content stream).drop bodyLength := by
        rw [hbody, List.take_append_drop]
      subst hlength
      have hhead : body.head? = some tableType := by
        obtain ⟨b, rest, hcons⟩ : ∃ b rest, buffer.bytes = b :: rest := by
          cases hb : buffer.bytes with
          | nil => simp [hb] at hfirst
          | cons b rest => exact ⟨b, rest, rfl⟩
        have hpos : 0 < body.length := by
          have hle := hlead
          rw [hcons, List.length_cons] at hle
          omega
        rw [hcons] at hfirst hsplit
        cases body with
        | nil => simp at hpos
        | cons c tail =>
          rw [List.cons_append, List.cons_append, List.cons.injEq] at hsplit
          rw [List.head?_cons] at hfirst ⊢
          rw [← hsplit.1]
          exact hfirst
      obtain ⟨result, hresult, hsame, -, hrest⟩ := receiveOutcome_agrees runtime.categories encoding hsize hhead
        hsplit hlead hrun
      rw [hresult, Exec.ok_bind]
      rw [← hrest] at hsplit
      exact .inl ⟨body, kind, result, _, rfl, hsplit, hhead, rfl, rfl, hsame⟩
    · obtain ⟨e, hstarved⟩ := receiveOutcome_starved runtime.categories encoding
        (by rw [List.length_append] at hfull; omega) hrun
      exact .inr ⟨⟨e, by rw [hstarved, Exec.err_bind]⟩, .of_short (by omega)⟩
  · refine .inr ⟨⟨e, by rw [hkind, Exec.err_bind]⟩, ?_⟩
    rintro body more ⟨type, prepared⟩ - - haccepted
    have htype := (prepareIpcBody_eq_ok.mp haccepted).2.1
    rw [hkind] at htype
    exact Exec.err_ne_ok _ _ htype

variable {pipeline : Option SymbolEncoding} {prefixLength : Nat}

/-- The body behind its prefix, which is in the buffer. -/
theorem readBody_outcome (hlead : buffer.bytes.length ≤ bodyLength) (hcapacity : 0 < buffer.capacity)
    (hsize : bodyLength ≤ isizeMax) (hlength : checkedBodyLength header.totalLength "IPC message" = .ok bodyLength)
    (hplain : prefixLength = 0 → header.compressionMode = 0 ∧
      enforceMessageBound header.totalLength maximum = .ok () ∧ buffer.bytes = []) :
    (∃ body kind prepared ipc stream' buffer', body.length = bodyLength ∧
      buffer.bytes ++ content stream = body ++ content stream' ∧
      prepareIpcBody header body maximum = .ok (kind, prepared) ∧
      readBody runtime header bodyLength prefixLength maximum pipeline stream buffer =
        .ok (kind, ipc, stream', buffer') ∧
      Accepted runtime pipeline body prepared buffer' ipc) ∨
    (∃ e, readBody runtime header bodyLength prefixLength maximum pipeline stream buffer = Exec.err e) ∧
      Unacceptable header maximum bodyLength (buffer.bytes ++ content stream) := by
  have hwhole (stream₁ : QStream) (buffer₁ : Buffer) (hlead₁ : buffer₁.bytes.length ≤ bodyLength)
      (hcapacity₁ : 0 < buffer₁.capacity)
      (hsame : buffer.bytes ++ content stream = buffer₁.bytes ++ content stream₁) :
      (∃ body kind prepared ipc stream' buffer', body.length = bodyLength ∧
        buffer.bytes ++ content stream = body ++ content stream' ∧
        prepareIpcBody header body maximum = .ok (kind, prepared) ∧
        readWholeBody runtime.alloc header bodyLength maximum stream₁ buffer₁ =
          .ok (kind, ipc, stream', buffer') ∧
        Accepted runtime pipeline body prepared buffer' ipc) ∨
      (∃ e, readWholeBody runtime.alloc header bodyLength maximum stream₁ buffer₁ = Exec.err e) ∧
        Unacceptable header maximum bodyLength (buffer.bytes ++ content stream) := by
    rcases @readWholeBody_outcome runtime maximum stream₁ buffer₁ header bodyLength hlead₁ hcapacity₁ hsize with
      ⟨body, kind, prepared, stream', buffer', hlen, hsplit, hprepared, hrun, hbytes⟩ | herr
    · exact .inl ⟨body, kind, prepared, _, stream', buffer', hlen, hsame.trans hsplit, hprepared, hrun,
        .whole hbytes⟩
    · rw [← hsame] at herr
      exact .inr herr
  unfold readBody
  split
  · next encoding =>
    split
    · next hpiped =>
      obtain ⟨hzero, -, hroom⟩ := hpiped
      obtain ⟨hmode, hbound, hempty⟩ := hplain hzero
      have hleast : 2 ≤ bodyLength := (checkedBodyLength_eq_ok.mp hlength).2.2
      rcases @readSomeInto_outcome stream buffer bodyLength (by simp only [hempty, List.length_nil]; omega) hroom with
        ⟨stream₁, buffer₁, hread, hne, hlead₁, hgrown, hsame⟩ | ⟨⟨e, hread⟩, hnil⟩
      · rw [hread, Exec.ok_bind]
        obtain ⟨first, rest, hcons⟩ := List.exists_cons_of_ne_nil hne
        have hfirst : index buffer₁.bytes 0 = .ok first := by
          rw [hcons]
          rfl
        simp only [hfirst, Exec.ok_bind]
        split
        · next htable =>
          rcases @receivePipelined_outcome runtime maximum stream₁ buffer₁ header bodyLength encoding hlead₁ hsize
            (by rw [hcons, List.head?_cons, htable.1]) with
            ⟨body, kind, result, stream', hlen, hsplit, hhead, hkind, hrun, hresult⟩ | herr
          · refine .inl ⟨body, kind, .borrowed body, _, stream', buffer₁, hlen, hsame.trans hsplit, ?_, hrun,
              .decoded rfl rfl hhead hresult⟩
            rw [prepareIpcBody_eq_ok, hlen]
            exact ⟨hlength, hkind, .inl ⟨hmode, hbound, rfl⟩⟩
          · rw [← hsame] at herr
            exact .inr herr
        · exact hwhole stream₁ buffer₁ hlead₁ (by omega) hsame
      · refine .inr ⟨⟨e, by rw [hread, Exec.err_bind]⟩, .of_short ?_⟩
        rw [hempty, hnil]
        simp only [List.append_nil, List.length_nil]
        omega
    · exact hwhole stream buffer hlead hcapacity rfl
  · exact hwhole stream buffer hlead hcapacity rfl

/-- The prefix of a compressed body. -/
theorem readPrefix_outcome (width : Nat) :
    (∃ bytes rest, readPrefix header width maximum stream = .ok (bytes, rest) ∧ bytes.length = width ∧
      content stream = bytes ++ content rest) ∨
    ∃ e, readPrefix header width maximum stream = Exec.err e := by
  unfold readPrefix
  split
  · rcases readExact_cases width stream with ⟨bytes, rest, hread, hlen, hcontent⟩ | ⟨⟨e, hread⟩, -⟩
    · rw [hread, Exec.ok_bind]
      dsimp only
      rcases outcome_cases (compressedMessageLength_noPanic bytes header.compressionMode) with
        ⟨declared, hdeclared⟩ | ⟨e, hdeclared⟩
      · rw [hdeclared, Exec.ok_bind]
        rcases outcome_cases (enforceMessageBound_noPanic declared.1 maximum) with ⟨⟨⟩, hbound⟩ | ⟨e, hbound⟩
        · rw [hbound, Exec.ok_bind]
          rcases outcome_cases (enforceCompressedPhysicalBound_noPanic header.totalLength declared.1 width) with
            ⟨⟨⟩, hphysical⟩ | ⟨e, hphysical⟩
          · rw [hphysical, Exec.ok_bind]
            exact .inl ⟨bytes, rest, rfl, hlen, hcontent⟩
          · exact .inr ⟨e, by rw [hphysical, Exec.err_bind]⟩
        · exact .inr ⟨e, by rw [hbound, Exec.err_bind]⟩
      · exact .inr ⟨e, by rw [hdeclared, Exec.err_bind]⟩
    · exact .inr ⟨e, by rw [hread, Exec.err_bind]⟩
  · exact .inl ⟨[], stream, rfl, by simp only [List.length_nil]; omega, rfl⟩

theorem bodyPrefixLength_cases (hmode : header.compressionMode ≤ 2) :
    (∃ width, bodyPrefixLength header maximum = .ok width ∧ (width = 0 → header.compressionMode = 0 ∧
      enforceMessageBound header.totalLength maximum = .ok ())) ∨
    ∃ e, bodyPrefixLength header maximum = Exec.err e := by
  unfold bodyPrefixLength
  rcases mode_cases hmode with hzero | hone | htwo
  · rw [if_pos hzero]
    rcases outcome_cases (enforceMessageBound_noPanic header.totalLength maximum) with ⟨⟨⟩, hbound⟩ | ⟨e, hbound⟩
    · rw [hbound]
      exact .inl ⟨0, rfl, fun _ => ⟨hzero, rfl⟩⟩
    · rw [hbound]
      exact .inr ⟨e, rfl⟩
  · rw [hone]
    exact .inl ⟨4, rfl, by simp⟩
  · rw [htwo]
    exact .inl ⟨8, rfl, by simp⟩

/-- An error of the path without a pipeline means that there is nothing to accept. -/
theorem unacceptable_of_err (hmode : header.compressionMode ≤ 2) (hsize : bodyLength ≤ isizeMax)
    (hleast : 2 ≤ bodyLength) {e : XqdbError}
    (herr : readFramedBody runtime header bodyLength maximum none stream buffer = Exec.err e) :
    Unacceptable header maximum bodyLength (content stream) := by
  by_cases hfull : bodyLength ≤ (content stream).length
  · rintro body more accepted hsplit rfl haccepted
    rcases @readFramedBody_cases runtime maximum stream buffer more header body hmode hleast hsize hsplit with
      ⟨kind, prepared, stream', buffer', -, hrun, -⟩ | ⟨-, hnot⟩
    · exact absurd (herr.symm.trans hrun) (Exec.err_ne_ok _ _)
    · exact hnot accepted haccepted
  · exact .of_short (by omega)

theorem readFramedBody_outcome (hmode : header.compressionMode ≤ 2) (hsize : bodyLength ≤ isizeMax)
    (hlength : checkedBodyLength header.totalLength "IPC message" = .ok bodyLength) :
    (∃ body kind prepared ipc stream' buffer', body.length = bodyLength ∧
      content stream = body ++ content stream' ∧
      prepareIpcBody header body maximum = .ok (kind, prepared) ∧
      readFramedBody runtime header bodyLength maximum pipeline stream buffer =
        .ok (kind, ipc, stream', buffer') ∧
      Accepted runtime pipeline body prepared buffer' ipc) ∨
    (∃ e, readFramedBody runtime header bodyLength maximum pipeline stream buffer = Exec.err e) ∧
      Unacceptable header maximum bodyLength (content stream) := by
  have hleast : 2 ≤ bodyLength := (checkedBodyLength_eq_ok.mp hlength).2.2
  -- up to the body the pipeline makes no difference
  have hplainErr (e : XqdbError) := @unacceptable_of_err runtime maximum stream buffer header bodyLength hmode hsize
    hleast e
  unfold readFramedBody at hplainErr ⊢
  rcases @bodyPrefixLength_cases maximum header hmode with ⟨width, hwidth, hplain⟩ | ⟨e, hwidth⟩
  · rw [hwidth, Exec.ok_bind] at hplainErr ⊢
    by_cases hlong : width > bodyLength
    · rw [if_pos hlong] at hplainErr ⊢
      exact .inr ⟨⟨_, rfl⟩, hplainErr _ rfl⟩
    rw [if_neg hlong] at hplainErr ⊢
    rcases @readPrefix_outcome maximum stream header width with ⟨lead, stream₁, hread, hlen, hcontent⟩ | ⟨e, hread⟩
    · rw [hread, Exec.ok_bind]
      dsimp only
      obtain ⟨hempty, hroom⟩ := reserveBuffer_spec runtime.alloc buffer
        (max (min bodyLength initialBodyReservation) width)
      set reserved := reserveBuffer runtime.alloc buffer.clear (max (min bodyLength initialBodyReservation) width)
        with hreserved
      have hgrown := extendFromSlice_capacity reserved lead
      have hbytes : (reserved.extendFromSlice lead).bytes = lead := by
        simp only [Buffer.extendFromSlice, hempty, List.nil_append]
      have hpositive : 0 < (reserved.extendFromSlice lead).capacity := by
        unfold initialBodyReservation at hroom
        omega
      rcases @readBody_outcome runtime maximum stream₁ (reserved.extendFromSlice lead) header bodyLength pipeline
        width (by rw [hbytes]; omega) hpositive hsize hlength (by
          intro hzero
          refine ⟨(hplain hzero).1, (hplain hzero).2, ?_⟩
          rw [hbytes]
          exact List.length_eq_zero_iff.mp (hlen.trans hzero)) with
        ⟨body, kind, prepared, ipc, stream', buffer', hbody, hsplit, hrest⟩ | herr
      · refine .inl ⟨body, kind, prepared, ipc, stream', buffer', hbody, ?_, hrest⟩
        rw [hcontent, ← hsplit, hbytes]
      · rw [hbytes, ← hcontent] at herr
        exact .inr herr
    · rw [hread, Exec.err_bind] at hplainErr ⊢
      exact .inr ⟨⟨e, rfl⟩, hplainErr e rfl⟩
  · rw [hwidth, Exec.err_bind] at hplainErr ⊢
    exact .inr ⟨⟨e, rfl⟩, hplainErr e rfl⟩

/-- **One read, one frame.** On any stream, however it is cut and wherever it fails, a read
takes exactly one complete frame that framing in memory accepts too; or it is an error, and
no complete frame that is acceptable stands there. -/
theorem readIpcBody_outcome :
    (∃ frame kind prepared ipc stream' buffer', CompleteFrame frame ∧
      content stream = frame ++ content stream' ∧ prepareFrame frame maximum = .ok (kind, prepared) ∧
      readIpcBody runtime maximum pipeline stream buffer = .ok (kind, ipc, stream', buffer') ∧
      Accepted runtime pipeline (frame.drop ipcHeaderLength) prepared buffer' ipc) ∨
    (∃ e, readIpcBody runtime maximum pipeline stream buffer = Exec.err e) ∧
      ∀ frame more accepted, content stream = frame ++ more → CompleteFrame frame →
        prepareFrame frame maximum ≠ .ok accepted := by
  have hisize : (2 : Nat) ^ 41 < isizeMax := by decide
  unfold readIpcBody
  rcases readExact_cases ipcHeaderLength stream with ⟨start, stream₁, hread, hlen, hcontent⟩ | ⟨⟨e, hread⟩, hshort⟩
  · rw [hread, Exec.ok_bind]
    dsimp only
    -- every complete frame ahead starts with these bytes
    have hstarts (frame more : Bytes) (hsplit : content stream = frame ++ more) (hframe : CompleteFrame frame) :
        frame.take ipcHeaderLength = start ∧ content stream₁ = frame.drop ipcHeaderLength ++ more := by
      have hlong := hframe.1
      have hparts : start ++ content stream₁ =
          frame.take ipcHeaderLength ++ (frame.drop ipcHeaderLength ++ more) := by
        rw [← List.append_assoc, List.take_append_drop, ← hcontent, hsplit]
      obtain ⟨hfirst, hsecond⟩ := List.append_inj hparts (by rw [hlen, List.length_take]; omega)
      exact ⟨hfirst.symm, hsecond⟩
    rcases outcome_cases (parseIpcHeader_noPanic start) with ⟨header, hparse⟩ | ⟨e, hparse⟩
    · obtain ⟨order, kind, mode, high, a, b, c, d, rest, hstart⟩ := take_header (Nat.le_of_eq hlen.symm)
      obtain rfl : rest = [] := by
        rw [hstart] at hlen
        simpa [ipcHeaderLength] using hlen
      have hparsed := hparse
      rw [hstart] at hparsed
      obtain ⟨-, -, hmode, hleast, hheader⟩ := parseIpcHeader_eq_ok.mp hparsed
      have hlow := LittleEndian.decode_lt [a, b, c, d]
      simp only [List.length_cons, List.length_nil] at hlow
      have hhigh := high.toNat_lt
      have husize : isizeMax < usizeMax := by decide
      have hbodyLength : checkedBodyLength header.totalLength "IPC message" = .ok (header.totalLength - 8) := by
        rw [hheader]
        exact checkedBodyLength_eq_ok.mpr ⟨by simp only; omega, by simp only; omega, by simp only; omega⟩
      rw [hparse, Exec.ok_bind, hbodyLength, Exec.ok_bind]
      rcases @readFramedBody_outcome runtime maximum stream₁ buffer header (header.totalLength - 8) pipeline
        (by rw [hheader]; exact hmode) (by rw [hheader]; simp only; omega) hbodyLength with
        ⟨body, type, prepared, ipc, stream', buffer', hbody, hsplit, hprepared, hrun, haccepted⟩ | ⟨herr, hnot⟩
      · refine .inl ⟨start ++ body, type, prepared, ipc, stream', buffer', ⟨?_, ?_⟩, ?_, ?_, hrun, ?_⟩
        · rw [List.length_append, hlen]
          omega
        · rw [List.length_append, hlen, hbody, hstart, hheader]
          simp only [lengthField, byteAt, List.cons_append, List.nil_append, List.drop_succ_cons, List.drop_zero,
            List.take_succ_cons, List.take_zero, ipcHeaderLength]
          simp only [List.getElem?_cons_succ, List.getElem?_cons_zero, Option.getD_some]
          omega
        · rw [hcontent, hsplit, List.append_assoc]
        · rw [prepareFrame, List.take_left' hlen, List.drop_left' hlen, hparse, Exec.ok_bind]
          exact hprepared
        · rw [List.drop_left' hlen]
          exact haccepted
      · refine .inr ⟨herr, ?_⟩
        intro frame more accepted hsplit hframe haccepted
        obtain ⟨hfirst, hsecond⟩ := hstarts frame more hsplit hframe
        rw [prepareFrame, hfirst, hparse, Exec.ok_bind] at haccepted
        obtain ⟨htotal, -⟩ := parsedHeader hframe (by rw [← ipcHeaderLength, hfirst]; exact hparse)
        refine hnot (frame.drop ipcHeaderLength) more accepted hsecond ?_ haccepted
        rw [List.length_drop, htotal, ipcHeaderLength]
    · refine .inr ⟨⟨e, by rw [hparse, Exec.err_bind]⟩, ?_⟩
      intro frame more accepted hsplit hframe haccepted
      rw [prepareFrame, (hstarts frame more hsplit hframe).1, hparse, Exec.err_bind] at haccepted
      exact Exec.err_ne_ok _ _ haccepted
  · refine .inr ⟨⟨e, by rw [hread, Exec.err_bind]⟩, ?_⟩
    intro frame more accepted hsplit hframe _
    have hlong := hframe.1
    rw [hsplit, List.length_append] at hshort
    omega

end Frame

end Xqdb.Connector
