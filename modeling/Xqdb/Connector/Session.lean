import Xqdb.Connector.ReadFrame
import Xqdb.QValue.Total

/-! One connector over its life: `connect`, `send`, `receive`, `execute`, `execute_async` and
`shutdown` of `connector.rs`. What lies outside the connector is given to each operation:
how connecting goes and what the socket will report, how the write goes, and whether the
operation finds itself aborted in the end. -/

namespace Xqdb

namespace Connector

inductive CompressionMode where
  | Auto
  | On
  | Off
  deriving DecidableEq, Repr

structure ConnectorSettings where
  valueMode : ValueMode
  compression : CompressionMode
  compressionThreshold : Nat
  maxMessageBytes : Option Nat
  maxPendingNotifications : Nat

/-- The fields of a connector that no operation changes. -/
structure Config where
  user : Bytes
  password : Bytes
  version : UInt8
  isLocal : Bool
  symbolEncoding : SymbolEncoding
  settings : ConnectorSettings

/-- What has passed over a connection behind the handshake: a write, or the bytes that the
read of a frame has taken. -/
inductive Exchange where
  | wrote (bytes : Bytes)
  | took (bytes : Bytes)
  deriving DecidableEq, Repr

/-- `arriving` is everything that arrives behind the answer to the handshake, `stream` what of
it is still to be read; `log` is history. -/
structure Connection where
  arriving : QStream
  stream : QStream
  log : List Exchange

end Connector

/-- `stream` stands for `stream` and `tcp_stream`, which are there together. The last two
fields are history: the notification frames that `execute` has queued, and what `receive`
has returned from the queue. -/
structure Connector where
  stream : Option Connector.Connection
  pendingNotifications : List (Except XqdbError K)
  receiveBuffer : Connector.Buffer
  passed : List Bytes
  delivered : List (Except XqdbError K)

namespace Connector

open Compression (compress)
open Incoming (content putBack)

def new : Connector := ⟨none, [], .empty, [], []⟩

/-- What an operation finds outside: what comes of resolving, connecting and attaching the
socket, the failure of the handshake's write, how many bytes a request's write gets through
before it fails, how closing fails, and whether `finish` finds the entry gone. -/
structure Outside where
  socket : Except XqdbError QStream
  credentials : Option IoFailure
  writing : Option (Nat × IoFailure)
  closing : Option IoFailure
  aborted : Bool

def operationAbortedError : XqdbError := .IOError .interrupted "Connector operation was aborted"

def unsupportedRequestError : XqdbError := .Err "Received unsupported synchronous request from q"

/-! ## Requests -/

/-- `char::is_whitespace`. -/
def isWhitespace (c : Char) : Bool :=
  [0x09, 0x0A, 0x0B, 0x0C, 0x0D, 0x20, 0x85, 0xA0, 0x1680, 0x2000, 0x2001, 0x2002, 0x2003, 0x2004,
    0x2005, 0x2006, 0x2007, 0x2008, 0x2009, 0x200A, 0x2028, 0x2029, 0x202F, 0x205F, 0x3000].contains c.toNat

def trim (expr : List Char) : List Char :=
  ((expr.dropWhile isWhitespace).reverse.dropWhile isWhitespace).reverse

def exprBytes (expr : List Char) : Bytes := expr.flatMap String.utf8EncodeChar

def isLambda (expr : List Char) : Bool := expr.head? == some '\x7b' && expr.getLast? == some '\x7d'

def requestLengthOverflowed : XqdbError := .Err "IPC request length overflowed"

/-- `for value in args { length = length.checked_add(value.j6_len()?)? }`. -/
def addArgumentLengths (length : Nat) : List K → Exec Nat
  | [] => .ok length
  | value :: args => do
    let valueLength ← value.j6Len
    let length ← Exec.okOr (checkedAdd length valueLength) requestLengthOverflowed
    addArgumentLengths length args

def requestBodyLength (expr : List Char) (args : List K) : Exec Nat :=
  if args = [] then Exec.okOr (checkedAdd 6 (exprBytes expr).length) requestLengthOverflowed
  else do
    let length ← Exec.okOr
      ((checkedAdd 12 (if isLambda expr then 2 else 0)).bind (checkedAdd · (exprBytes expr).length))
      requestLengthOverflowed
    addArgumentLengths length args

def checkedOutgoingMessageLength (bodyLength : Nat) (description : String) : Exec (Nat × UInt8 × Nat) := do
  let totalLength ← Exec.okOr (checkedAdd bodyLength ipcHeaderLength)
    (.Err s!"{description} length overflowed")
  let field ← ipcLengthHeader totalLength
  .ok (totalLength, field)

/-- `i32::try_from(length)`, as its four bytes. -/
def i32Length (length : Nat) : Exec Bytes :=
  if length ≤ i32Max then .ok (LittleEndian.encode 4 length) else Exec.err .OverLengthErr

/-- `for value in args { serialize_into(value, &mut frame)? }`. -/
def serializeArguments (frame : Bytes) : List K → Exec Bytes
  | [] => .ok frame
  | value :: args => do
    let frame ← value.serializeInto frame
    serializeArguments frame args

/-- The expression, and behind it the arguments. -/
def appendRequest (frame expressionLength : Bytes) (expr : List Char) (args : List K) : Exec Bytes :=
  let text := [10, 0] ++ expressionLength ++ exprBytes expr
  if args = [] then .ok (frame ++ text)
  else do
    let argumentCount ← i32Length (args.length + 1)
    let lambda : Bytes := if isLambda expr then [100, 0] else []
    serializeArguments (frame ++ ([0, 0] ++ argumentCount ++ lambda ++ text)) args

/-- The frame of a request, before compression. -/
def requestFrame (msgType : MsgType) (expr : List Char) (args : List K) : Exec Bytes := do
  let expr := trim expr
  let expressionLength ← i32Length (exprBytes expr).length
  let bodyLength ← requestBodyLength expr args
  let length ← checkedOutgoingMessageLength bodyLength "IPC request"
  let frame ← appendRequest ([1, msgType.toByte, 0, length.2.1] ++ LittleEndian.encode 4 length.2.2)
    expressionLength expr args
  if frame.length ≠ length.1 then
    Exec.err (.Err "Serialized request length differs from its declared q length")
  else .ok frame

section Operations

variable (runtime : Runtime) (config : Config)

def shouldCompress (totalLength : Nat) : Bool :=
  match config.settings.compression with
  | .On => true
  | .Off => false
  | .Auto => !config.isLocal && decide (config.settings.compressionThreshold ≤ totalLength)

/-- What `send` writes. -/
def requestPayload (msgType : MsgType) (expr : List Char) (args : List K) : Exec Bytes := do
  let frame ← requestFrame msgType expr args
  if shouldCompress config frame.length then compress frame else .ok frame

/-! ## The operations -/

def disconnectAfterProtocolError (c : Connector) : Connector :=
  { c with stream := none, receiveBuffer := .empty }

def finishOperation {α : Type} (outside : Outside) (done : Exec α × Connector) : Exec α × Connector :=
  match done.1 with
  -- a panic unwinds past it
  | .error .panic => done
  | _ =>
    if outside.aborted then (Exec.err operationAbortedError, disconnectAfterProtocolError done.2)
    else done

/-- One read of one byte, which is not tried again. -/
def readAnswer : QStream → Exec QStream
  | [] => Exec.err .AuthErr
  | .data version rest :: stream => if 1 ≤ version then .ok (putBack rest stream) else Exec.err .VersionErr
  | .interrupted :: _ => Exec.err (.IOError .interrupted "Interrupted system call (os error 4)")
  | .failed e :: _ => Exec.err e.toError

def auth (outside : Outside) (socket : QStream) : Exec QStream := do
  let _ ← Exec.okOr ((checkedAdd config.user.length config.password.length).bind (checkedAdd · 3))
    (.Err "Authentication credential length overflowed")
  match outside.credentials with
  | some e => Exec.err e.toError
  | none => readAnswer socket

def connectInner (outside : Outside) (c : Connector) : Exec Unit × Connector :=
  if c.stream.isSome then (.ok (), c)
  else
    match outside.socket with
    | .error e => (Exec.err e, c)
    | .ok socket =>
      match auth config outside socket with
      | .error e => (.error e, { c with stream := none })
      | .ok stream => (.ok (), { c with stream := some ⟨stream, stream, []⟩ })

def sendInner (outside : Outside) (msgType : MsgType) (expr : List Char) (args : List K) (c : Connector) :
    Exec Unit × Connector :=
  match c.stream with
  | none => (Exec.err .NotConnectedErr, c)
  | some connection =>
    if config.version > 6 then (Exec.err .NotConnectedErr, c)
    else if args.length > 8 then (Exec.err .TooManyArgumentErr, c)
    else
      match requestPayload config msgType expr args with
      | .error e => (.error e, c)
      | .ok payload =>
        match outside.writing with
        | none => (.ok (), { c with
            stream := some { connection with log := connection.log ++ [.wrote payload] } })
        | some (count, e) => (Exec.err e.toError, disconnectAfterProtocolError { c with
            stream := some { connection with log := connection.log ++ [.wrote (payload.take count)] } })

/-- What a read that leaves `rest` of `stream` has taken. -/
def takenBytes (stream rest : QStream) : Bytes :=
  (content stream).take ((content stream).length - (content rest).length)

def pipelineEncoding : Option SymbolEncoding :=
  if config.settings.valueMode = .Native then some config.symbolEncoding else none

def readNextFrame (c : Connector) : Exec (MsgType × IpcBody) × Connector :=
  if config.version > 6 then (Exec.err .NotConnectedErr, c)
  else
    match c.stream with
    | none => (Exec.err .NotConnectedErr, c)
    | some connection =>
      match readIpcBody runtime config.settings.maxMessageBytes (pipelineEncoding config) connection.stream
          c.receiveBuffer with
      | .error .panic => (Exec.panicked, c)
      | .error (.error e) => (Exec.err e, disconnectAfterProtocolError c)
      | .ok (messageType, body, stream, buffer) =>
        let c := { c with
          stream := some { connection with
            stream := stream
            log := connection.log ++ [.took (takenBytes connection.stream stream)] }
          receiveBuffer := buffer }
        if messageType = .Sync then
          (Exec.err unsupportedRequestError, disconnectAfterProtocolError c)
        else (.ok (messageType, body), c)

def releaseOversizedBuffer (buffer : Buffer) : Buffer :=
  if buffer.capacity > maxRetainedBufferBytes then .empty else buffer

def bodyValue (buffer : Buffer) (body : IpcBody) : Exec K :=
  match body with
  | .Retained => decodeValueBody runtime.categories config.symbolEncoding config.settings.valueMode buffer.bytes
  | .Decompressed body =>
    decodeValueBody runtime.categories config.symbolEncoding config.settings.valueMode body
  | .Decoded value => value.mapError .error

/-- The lossless mode takes the retained buffer over. -/
def decodeFrameBody (body : IpcBody) (c : Connector) : Exec K × Connector :=
  let buffer :=
    match body, config.settings.valueMode with
    | .Retained, .Lossless => .empty
    | _, _ => c.receiveBuffer
  (bodyValue runtime config c.receiveBuffer body, { c with receiveBuffer := releaseOversizedBuffer buffer })

def overflowError : XqdbError :=
  .Err s!"Pending notification limit {config.settings.maxPendingNotifications} exceeded"

/-- The last frame that was read. -/
def lastTaken (c : Connector) : Bytes :=
  match c.stream.bind (·.log.getLast?) with
  | some (.took bytes) => bytes
  | _ => []

/-- The loop of `execute_inner`. -/
def executeLoop : Nat → Connector → Exec K × Connector
  | 0, c => (Exec.panicked, c)
  | fuel + 1, c =>
    match readNextFrame runtime config c with
    | (.error e, c) => (.error e, c)
    | (.ok (.Response, body), c) => decodeFrameBody runtime config body c
    | (.ok (.Async, body), c) =>
      if config.settings.maxPendingNotifications ≤ c.pendingNotifications.length then
        (Exec.err (overflowError config), disconnectAfterProtocolError c)
      else
        match decodeFrameBody runtime config body c with
        | (.error .panic, c) => (Exec.panicked, c)
        | (.error (.error e), c') => executeLoop fuel { c' with
            pendingNotifications := c'.pendingNotifications ++ [.error e]
            passed := c'.passed ++ [lastTaken c] }
        | (.ok value, c') => executeLoop fuel { c' with
            pendingNotifications := c'.pendingNotifications ++ [.ok value]
            passed := c'.passed ++ [lastTaken c] }
    | (.ok (.Sync, _), c) => (Exec.panicked, c)

/-- A frame has at least its header, so the bytes ahead bound the rounds. -/
def executeFuel (c : Connector) : Nat :=
  match c.stream with
  | none => 1
  | some connection => (content connection.stream).length + 1

def executeInner (outside : Outside) (expr : List Char) (args : List K) (c : Connector) : Exec K × Connector :=
  match connectInner config outside c with
  | (.error e, c) => (.error e, c)
  | (.ok (), c) =>
    match sendInner config outside .Sync expr args c with
    | (.error e, c) => (.error e, c)
    | (.ok (), c) => executeLoop runtime config (executeFuel c) c

def receiveInner (c : Connector) : Exec K × Connector :=
  match readNextFrame runtime config c with
  | (.error e, c) => (.error e, c)
  | (.ok (_, body), c) => decodeFrameBody runtime config body c

def connect (outside : Outside) (c : Connector) : Exec Unit × Connector :=
  finishOperation outside (connectInner config outside c)

def send (outside : Outside) (msgType : MsgType) (expr : List Char) (args : List K) (c : Connector) :
    Exec Unit × Connector :=
  finishOperation outside (sendInner config outside msgType expr args c)

def receive (outside : Outside) (c : Connector) : Exec K × Connector :=
  match c.pendingNotifications with
  | notification :: pending => (notification.mapError .error, { c with
      pendingNotifications := pending
      delivered := c.delivered ++ [notification] })
  | [] => finishOperation outside (receiveInner runtime config c)

def execute (outside : Outside) (expr : List Char) (args : List K) (c : Connector) : Exec K × Connector :=
  finishOperation outside (executeInner runtime config outside expr args c)

def executeAsync (outside : Outside) (expr : List Char) (args : List K) (c : Connector) :
    Exec Unit × Connector :=
  finishOperation outside
    (match connectInner config outside c with
    | (.error e, c) => (.error e, c)
    | (.ok (), c) => sendInner config outside .Async expr args c)

def shutdown (outside : Outside) (c : Connector) : Exec Unit × Connector :=
  if c.stream.isNone then (Exec.err .NotConnectedErr, c)
  else
    match outside.closing with
    | none => (.ok (), { c with stream := none })
    | some e => (Exec.err e.toError, { c with stream := none })

inductive Operation where
  | connect
  | send (msgType : MsgType) (expr : List Char) (args : List K)
  | receive
  | execute (expr : List Char) (args : List K)
  | executeAsync (expr : List Char) (args : List K)
  | shutdown

/-- The connector behind an operation. -/
def perform (outside : Outside) (operation : Operation) (c : Connector) : Connector :=
  match operation with
  | .connect => (connect config outside c).2
  | .send msgType expr args => (send config outside msgType expr args c).2
  | .receive => (receive runtime config outside c).2
  | .execute expr args => (execute runtime config outside expr args c).2
  | .executeAsync expr args => (executeAsync config outside expr args c).2
  | .shutdown => (shutdown outside c).2

/-- The connector behind a sequence of operations. -/
def performAll (c : Connector) : List (Outside × Operation) → Connector
  | [] => c
  | (outside, operation) :: operations => performAll (perform runtime config outside operation c) operations

end Operations

end Connector

end Xqdb
