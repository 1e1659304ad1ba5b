/-
Requests and responses as header fields (`render-net/src/h2/connection.rs`): the checks on a request, the fields it is
sent as, and the checks on the fields of a response.
-/
import Render.H2.Connection

namespace Render.H2

open Render.Core

/-! ## Names and values -/

def isAsciiUppercase (byte : UInt8) : Bool := 0x41 ≤ byte && byte ≤ 0x5a
def isAsciiLowercase (byte : UInt8) : Bool := 0x61 ≤ byte && byte ≤ 0x7a
def isAsciiDigit (byte : UInt8) : Bool := 0x30 ≤ byte && byte ≤ 0x39
def isAsciiGraphic (byte : UInt8) : Bool := 0x21 ≤ byte && byte ≤ 0x7e

def toAsciiLowercase (byte : UInt8) : UInt8 := if isAsciiUppercase byte then byte + 0x20 else byte

def eqIgnoreAsciiCase (a b : Octets) : Bool := a.map toAsciiLowercase == b.map toAsciiLowercase

def isTokenByte (byte : UInt8) : Bool :=
  isAsciiUppercase byte || isAsciiLowercase byte || isAsciiDigit byte || (ascii "!#$%&'*+-.^_`|~").contains byte

def isToken (value : Octets) : Bool := !value.isEmpty && value.all isTokenByte

/-- the text is what `validate_field_name` returns as its error -/
def validateFieldName (name : Octets) : Except String Unit := do
  refuse name.isEmpty "empty header name"
  refuse (name.any isAsciiUppercase) "HTTP/2 header names must be lowercase"
  refuse (!name.all isTokenByte) "header name contains a non-token byte"

def validFieldValue (value : Octets) : Bool := !value.any fun byte => byte == 0x00 || byte == 0x0a || byte == 0x0d

def isConnectionSpecific (name : Octets) : Bool :=
  name == ascii "connection" || name == ascii "keep-alive" || name == ascii "proxy-connection" ||
    name == ascii "transfer-encoding" || name == ascii "upgrade"

/-- does a name start with the colon of a pseudo header -/
def isPseudo (name : Octets) : Bool := name.head? == some 0x3a

/-! ## Requests -/

/-- a request that is refused with a text -/
def invalidRequest (text : String) : H2Error := .invalidRequest (.text text)

def validateRequestHeader (field : HeaderField) : Except H2Error Unit := do
  (validateFieldName field.name).mapError fun detail =>
    .invalidRequest (.quoted "header " field.name (": " ++ detail))
  refuse (isPseudo field.name) (invalidRequest "caller-supplied pseudo headers are not allowed")
  refuse (isConnectionSpecific field.name)
    (.invalidRequest (.quoted "connection-specific header " field.name " is forbidden in HTTP/2"))
  refuse (field.name == ascii "te" && !eqIgnoreAsciiCase field.value (ascii "trailers"))
    (invalidRequest "TE may only carry \"trailers\" in HTTP/2")
  refuse (!validFieldValue field.value) (invalidRequest "header value contains NUL, CR, or LF")

/-- the loop over the headers of a request -/
def validateRequestHeaders : List HeaderField → Except H2Error Unit
  | [] => .ok ()
  | field :: rest => do
    validateRequestHeader field
    validateRequestHeaders rest

def validateRequest (request : H2Request) : Except H2Error Unit := do
  refuse (eqIgnoreAsciiCase request.method (ascii "CONNECT")) (.unsupported .connect)
  refuse (!isToken request.method) (.invalidRequest (.quoted "method " request.method " is not an HTTP token"))
  refuse (request.scheme ≠ ascii "http" ∧ request.scheme ≠ ascii "https")
    (.invalidRequest (.quoted "unsupported scheme " request.scheme ""))
  refuse (request.authority.isEmpty || !request.authority.all isAsciiGraphic)
    (invalidRequest "authority must be non-empty visible ASCII")
  refuse (request.path.head? ≠ some 0x2f ∧ request.path ≠ ascii "*")
    (.invalidRequest (.quoted "path " request.path " must start with '/'"))
  refuse (!request.path.all isAsciiGraphic) (invalidRequest "path must be visible ASCII")
  validateRequestHeaders request.headers

def requestFields (request : H2Request) : List HeaderField :=
  let hasContentLength := request.headers.any fun field => eqIgnoreAsciiCase field.name (ascii "content-length")
  [⟨ascii ":method", request.method⟩, ⟨ascii ":scheme", request.scheme⟩, ⟨ascii ":authority", request.authority⟩,
    ⟨ascii ":path", request.path⟩] ++
  (match request.body with
    | some body => if hasContentLength then [] else [⟨ascii "content-length", ascii s!"{body.length}"⟩]
    | none => []) ++
  request.headers

/-! ## Responses -/

/-- a response that violates the rules for its fields -/
def malformed (streamId : StreamId) (detail : Detail) : H2Error := .stream streamId .protocolError detail

def parseStatus (streamId : StreamId) (value : Octets) : Except H2Error ℕ := do
  refuse (value.length ≠ 3 ∨ ¬ value.all isAsciiDigit)
    (malformed streamId (.text "response :status must be exactly three digits"))
  return value.foldl (fun accumulator digit => accumulator * 10 + (digit.toNat - 0x30)) 0

/-- what the loop over the fields of a response has seen -/
structure ResponseFields where
  status : Option ℕ
  regular : List HeaderField
  sawRegular : Bool

def validateResponseField (streamId : StreamId) (trailers : Bool) (seen : ResponseFields) (field : HeaderField) :
    Except H2Error ResponseFields :=
  if isPseudo field.name then do
    refuse trailers (malformed streamId (.text "pseudo header in trailers"))
    refuse seen.sawRegular (malformed streamId (.text "pseudo header after regular header"))
    refuse (field.name ≠ ascii ":status")
      (malformed streamId (.quoted "unexpected response pseudo header " field.name ""))
    refuse seen.status.isSome (malformed streamId (.text "duplicate :status"))
    return { seen with status := some (← parseStatus streamId field.value) }
  else do
    (validateFieldName field.name).mapError fun detail => malformed streamId (.text detail)
    refuse (!validFieldValue field.value)
      (malformed streamId (.text "response header value contains NUL, CR, or LF"))
    return { seen with sawRegular := true, regular := seen.regular ++ [field] }

/-- the loop over the fields of a response -/
def responseLoop (streamId : StreamId) (trailers : Bool) :
    ResponseFields → List HeaderField → Except H2Error ResponseFields
  | seen, [] => .ok seen
  | seen, field :: rest => do
    let seen ← validateResponseField streamId trailers seen field
    responseLoop streamId trailers seen rest

def validateResponseFields (streamId : StreamId) (fields : List HeaderField) (trailers : Bool) :
    Except H2Error (Option ℕ × List HeaderField) := do
  let seen ← responseLoop streamId trailers ⟨none, [], false⟩ fields
  refuse (!trailers && seen.status.isNone) (malformed streamId (.text "response HEADERS is missing :status"))
  return (seen.status, seen.regular)

end Render.H2

/-! What the connection does with a frame (`render-net/src/h2/connection.rs`): `handle_frame` and the handlers behind it, and
`report_error` for a frame that is refused.

Each `expect` of the source is a `panic` where the value is not there. The `debug_assert` of `handle_continuation` is left
out: it repeats what `handle_frame` has checked. -/

namespace Render.H2

open Render.Core Render.Core.Comp Run

/-- a violation that ends the connection -/
def protocolError (detail : String) : H2Error := .protocol .protocolError detail

/-- a violation that ends a stream -/
def streamError (streamId : StreamId) (code : ErrorCode) (detail : String) : H2Error :=
  .stream streamId code (.text detail)

/-! ## Settings of the peer -/

/-- the loop over the active streams of a changed initial window: does it meet an overflow, and the streams it leaves -/
def shiftWindows (delta : ℤ) : List (Sigma fun _ : StreamId => Stream) → Bool × List (Sigma fun _ : StreamId => Stream)
  | [] => (false, [])
  | ⟨id, stream⟩ :: rest =>
    if stream.isActive then
      let stream := { stream with sendWindow := stream.sendWindow + delta }
      if stream.sendWindow > maxWindowSize then (true, ⟨id, stream⟩ :: rest)
      else
        let (overflow, rest) := shiftWindows delta rest
        (overflow, ⟨id, stream⟩ :: rest)
    else
      let (overflow, rest) := shiftWindows delta rest
      (overflow, ⟨id, stream⟩ :: rest)

theorem keys_shiftWindows (delta : ℤ) (entries : List (Sigma fun _ : StreamId => Stream)) :
    (shiftWindows delta entries).2.keys = entries.keys := by
  induction entries with
  | nil => rfl
  | cons entry rest ih =>
    obtain ⟨id, stream⟩ := entry
    simp only [shiftWindows]
    split_ifs <;> simp [ih]

/-- the streams after the loop -/
def shiftStreams (delta : ℤ) (streams : Streams) : Streams where
  entries := (shiftWindows delta streams.entries).2
  nodupKeys := by
    rw [List.NodupKeys, keys_shiftWindows]
    exact streams.nodupKeys

def applyInitialWindowSize (value : UInt32) : Run Unit := do
  let c ← conn
  let delta : ℤ := (value.toNat : ℤ) - c.peer.initialWindowSize.toNat
  update fun c =>
    { c with peer := { c.peer with initialWindowSize := value }, streams := shiftStreams delta c.streams }
  if (shiftWindows delta c.streams.entries).1 then
    raise (.protocol .flowControlError "SETTINGS_INITIAL_WINDOW_SIZE overflows a stream window")
  else pure ()

def applyPeerSetting (setting : Setting) : Run Unit :=
  match setting.id with
  | .headerTableSize =>
    update fun c => { c with encoder := c.encoder.setMaxTableSize (min setting.value.toNat maxEncoderTableSize) }
  | .enablePush => if setting.value ≠ 0 then raise (protocolError "server must not enable push") else pure ()
  | .maxConcurrentStreams => update fun c => { c with peer := { c.peer with maxConcurrentStreams := setting.value } }
  | .initialWindowSize => applyInitialWindowSize setting.value
  | .maxFrameSize => update fun c => { c with peer := { c.peer with maxFrameSize := setting.value } }
  | .maxHeaderListSize => pure ()
  | .unknown _ => pure ()

def applyPeerSettings (settings : List Setting) : Run Unit := forEach applyPeerSetting settings

/-- the settings of a frame that is no `ACK`, and the `ACK` for them -/
def acceptSettings (settings : List Setting) : Run Unit := do
  applyPeerSettings settings
  writeFrame .settingsAck
  update fun c => { c with stats := { c.stats with settingsAcksSent := c.stats.settingsAcksSent + 1 } }

/-! ## DATA -/

/-- the windows are given back for the octets of a frame -/
def creditData (streamId : StreamId) (endStream : Bool) (flowLength : ℕ) : Run Unit :=
  let increment := UInt32.ofNat flowLength
  if increment > 0 then do
    sendWindowUpdate .connection increment
    update fun c => { c with connRecvWindow := c.connRecvWindow + increment.toNat }
    if endStream then pure ()
    else do
      sendWindowUpdate streamId increment
      let c ← conn
      whenSome (c.streams.lookup streamId) fun stream =>
        update fun c => c.putStream streamId { stream with recvWindow := stream.recvWindow + increment.toNat }
  else pure ()

/-- the data of a frame that the connection window allows -/
def acceptData (streamId : StreamId) (endStream : Bool) (flowLength : ℕ) (data : Octets) : Run Unit := do
  let c ← conn
  match c.streams.lookup streamId with
  | none => panic
  | some stream =>
    let stream := { stream with recvWindow := stream.recvWindow - flowLength }
    update fun c => c.putStream streamId stream
    if stream.recvWindow < 0 then raise (streamError streamId .flowControlError "stream receive window exceeded")
    else if stream.body.length + data.length > c.config.maxBodySize then
      raise (streamError streamId .enhanceYourCalm s!"response body exceeds limit {c.config.maxBodySize}")
    else do
      let stream := { stream with body := stream.body ++ data }
      let stream := if endStream then { stream with endStreamReceived := true, state := stream.state.remoteEnd } else stream
      update fun c => c.putStream streamId stream
      creditData streamId endStream flowLength

def handleData (streamId : StreamId) (endStream : Bool) (flowLength : ℕ) (data : Octets) : Run Unit := do
  let c ← conn
  match c.streams.lookup streamId with
  | none => raise (protocolError s!"DATA on idle {streamId.display}")
  | some stream =>
    if stream.endStreamReceived then raise (streamError streamId .streamClosed "DATA after END_STREAM")
    else if stream.responseStatus.isNone then
      raise (streamError streamId .protocolError "DATA arrived before response HEADERS")
    else do
      update fun c => { c with connRecvWindow := c.connRecvWindow - flowLength }
      if c.connRecvWindow - flowLength < 0 then
        raise (.protocol .flowControlError "connection receive window exceeded")
      else acceptData streamId endStream flowLength data

/-! ## HEADERS and CONTINUATION -/

def checkHeaderBlockSize (size : ℕ) : Run Unit := do
  let c ← conn
  if size > c.config.maxHeaderBlockSize then raise (.headerBlockTooLarge c.config.maxHeaderBlockSize) else pure ()

def markLocalEnd (streamId : StreamId) : Run Unit := do
  let c ← conn
  match c.streams.lookup streamId with
  | none => raise (invalidRequest s!"unknown {streamId.display}")
  | some stream =>
    if stream.endStreamSent then pure ()
    else update fun c => c.putStream streamId { stream with endStreamSent := true, state := stream.state.localEnd }

def markRemoteEnd (streamId : StreamId) : Run Unit := do
  let c ← conn
  match c.streams.lookup streamId with
  | none => raise (invalidRequest s!"unknown {streamId.display}")
  | some stream =>
    if stream.endStreamReceived then raise (streamError streamId .streamClosed "duplicate END_STREAM")
    else update fun c => c.putStream streamId { stream with endStreamReceived := true, state := stream.state.remoteEnd }

/-- decodes a complete block; the decoder keeps what it did to its table before an error -/
def decodeBlock (fragment : Octets) : Run (List HeaderField) := do
  let c ← conn
  update fun c => { c with decoder := (c.decoder.decode fragment).2 }
  match (c.decoder.decode fragment).1 with
  | .ok decoded => return decoded
  | .error (.headerListTooLarge limit) => raise (.headerListTooLarge limit)
  | .error error => raise (.hpack error)

/-- the checks on the fields of a block, which give its status and its regular fields -/
def checkBlock (streamId : StreamId) (trailers endStream : Bool) (limit : ℕ) (decoded : List HeaderField) :
    Except H2Error (Option ℕ × List HeaderField) := do
  refuse ((decoded.map HeaderField.size).sum > limit)
    (streamError streamId .enhanceYourCalm s!"decoded header list exceeds limit {limit}")
  refuse (trailers && !endStream) (streamError streamId .protocolError "trailing HEADERS must carry END_STREAM")
  validateResponseFields streamId decoded trailers

def isInformational (status : Option ℕ) : Bool := status.any fun status => 100 ≤ status && status ≤ 199

/-- the fields of a block go into the response -/
def storeFields (streamId : StreamId) (status : Option ℕ) (regular : List HeaderField) : Run Unit := do
  let c ← conn
  match c.streams.lookup streamId with
  | none => panic
  | some stream =>
    let stream := { stream with responseHeaders := stream.responseHeaders ++ regular }
    update fun c => c.putStream streamId
      (match status with
        | some status => { stream with responseStatus := some status }
        | none => stream)

/-- what is done with the fields of a block: an informational response is dropped -/
def keepFields (streamId : StreamId) (endStream : Bool) (fields : Option ℕ × List HeaderField) : Run Unit :=
  if isInformational fields.1 then
    if endStream then raise (streamError streamId .protocolError "informational response ended the stream")
    else pure ()
  else do
    storeFields streamId fields.1 fields.2
    when endStream (markRemoteEnd streamId)

def finishHeaderBlock (streamId : StreamId) (trailers endStream : Bool) (fragment : Octets) : Run Unit := do
  checkHeaderBlockSize fragment.length
  let decoded ← decodeBlock fragment
  let c ← conn
  let fields ← propagate (checkBlock streamId trailers endStream c.config.maxHeaderListSize.toNat decoded)
  keepFields streamId endStream fields

def handleHeaders (streamId : StreamId) (endStream endHeaders : Bool) (fragment : Octets) : Run Unit := do
  let c ← conn
  match c.streams.lookup streamId with
  | none => raise (protocolError s!"HEADERS on idle {streamId.display}")
  | some stream =>
    if stream.endStreamReceived then raise (streamError streamId .streamClosed "HEADERS after END_STREAM")
    else
      let trailers := stream.responseStatus.isSome
      if endHeaders then finishHeaderBlock streamId trailers endStream fragment
      else do
        checkHeaderBlockSize fragment.length
        update fun c => { c with pendingInbound := some ⟨streamId, trailers, endStream, fragment⟩ }

/-- the fragment is added to the open block -/
def extendPending (fragment : Octets) : Run Unit := do
  let c ← conn
  match c.pendingInbound with
  | none => panic
  | some pending =>
    update fun c => { c with pendingInbound := some { pending with fragments := pending.fragments ++ fragment } }

/-- the open block is taken -/
def takePending : Run PendingInboundHeaders := do
  let c ← conn
  match c.pendingInbound with
  | none => panic
  | some pending =>
    update fun c => { c with pendingInbound := none }
    return pending

def handleContinuation (endHeaders : Bool) (fragment : Octets) : Run Unit := do
  let c ← conn
  match c.pendingInbound with
  | none => raise (protocolError "CONTINUATION without an open header block")
  | some pending => do
    extendPending fragment
    checkHeaderBlockSize (pending.fragments.length + fragment.length)
    if endHeaders then do
      let pending ← takePending
      finishHeaderBlock pending.streamId pending.trailers pending.endStream pending.fragments
    else pure ()

/-! ## The other frames -/

def handleRstStream (streamId : StreamId) (code : ErrorCode) : Run Unit := do
  let c ← conn
  match c.streams.lookup streamId with
  | none => raise (protocolError s!"RST_STREAM on idle {streamId.display}")
  | some stream =>
    if stream.state = .closed then pure ()
    else do
      update fun c => c.putStream streamId { stream with state := .closed }
      raise (.streamReset streamId code)

def handleWindowUpdate (streamId : StreamId) (increment : UInt32) : Run Unit := do
  let c ← conn
  if streamId.isConnection then do
    update fun c => { c with connSendWindow := c.connSendWindow + increment.toNat }
    if c.connSendWindow + increment.toNat > maxWindowSize then
      raise (.protocol .flowControlError "connection send window overflow")
    else pure ()
  else
    match c.streams.lookup streamId with
    | none => raise (protocolError s!"WINDOW_UPDATE on idle {streamId.display}")
    | some stream =>
      if stream.state = .closed then pure ()
      else do
        update fun c => c.putStream streamId { stream with sendWindow := stream.sendWindow + increment.toNat }
        if stream.sendWindow + increment.toNat > maxWindowSize then
          raise (streamError streamId .flowControlError "stream send window overflow")
        else pure ()

def ignorePriority : Run Unit :=
  update fun c => { c with stats := { c.stats with priorityFramesIgnored := c.stats.priorityFramesIgnored + 1 } }

/-- the checks on the order of the frames of a header block -/
def checkBlockOrder (c : H2Connection) (frame : Frame) : Except H2Error Unit :=
  match c.pendingInbound, frame.kind with
  | some pending, .continuation _ _ =>
    refuse (frame.header.streamId ≠ pending.streamId)
      (protocolError "CONTINUATION on a different stream than the open header block")
  | some _, _ => .error (protocolError "header block was interrupted before END_HEADERS")
  | none, .continuation _ _ => .error (protocolError "CONTINUATION without a preceding HEADERS frame")
  | none, _ => .ok ()

/-- the frame goes to the handler of its kind -/
def handleKind (frame : Frame) : Run Unit :=
  let streamId := frame.header.streamId
  match frame.kind with
  | .data data => handleData streamId frame.header.endStream frame.header.length data
  | .headers endStream endHeaders priority fragment => do
    when priority.isSome ignorePriority
    handleHeaders streamId endStream endHeaders fragment
  | .priority _ => ignorePriority
  | .rstStream errorCode => handleRstStream streamId errorCode
  | .settings ack settings => if ack then pure () else acceptSettings settings
  | .pushPromise _ _ _ => raise (.unsupported .serverPush)
  | .ping ack payload => if ack then pure () else writeFrame (.ping true payload)
  | .goAway lastStreamId errorCode debugData => do
    update fun c => { c with goaway := some (lastStreamId, errorCode, debugData), state := .closed }
    raise (.goAway lastStreamId errorCode debugData)
  | .windowUpdate increment => handleWindowUpdate streamId increment
  | .continuation endHeaders fragment => handleContinuation endHeaders fragment
  | .unknown _ _ =>
    update fun c => { c with stats := { c.stats with unknownFramesIgnored := c.stats.unknownFramesIgnored + 1 } }

def handleFrame (frame : Frame) : Run Unit := do
  let c ← conn
  propagate (checkBlockOrder c frame)
  handleKind frame

/-! ## Errors -/

def failConnection (error : H2Error) : Run Unit := do
  let c ← conn
  if c.state = .closed then pure ()
  else do
    let code := if error.code = .noError then .internalError else error.code
    let debug := (ascii error.connectionText).take maxGoawayDebug
    ignore (writeFrame (.goaway c.lastStreamId code debug))
    update fun c => { c with stats := { c.stats with goawaySent := c.stats.goawaySent + 1 }, state := .closed }

/-- the stream is closed, if it is still there -/
def closeStream (streamId : StreamId) : Run Unit := do
  let c ← conn
  whenSome (c.streams.lookup streamId) fun stream =>
    update fun c => c.putStream streamId { stream with state := .closed }

/-- `GOAWAY`, the end of the connection, or a failure of the transport -/
def H2Error.isFinal : H2Error → Bool
  | .goAway _ _ _ => true
  | .connectionClosed => true
  | .io _ => true
  | _ => false

def reportError (error : H2Error) : Run Unit :=
  match error with
  | .streamReset streamId _ => closeStream streamId
  | error =>
    if error.isFinal then update H2Connection.close
    else if error.isConnectionError then failConnection error
    else
      whenSome error.streamId fun streamId => do
        ignore (writeFrame (.rstStream streamId error.code))
        closeStream streamId

/-- a decoded frame is handled; the trace shows that it was, and how it went -/
def dispatch (frame : Frame) : Run (Except H2Error Unit) := do
  let c ← conn
  log (.dispatched c frame)
  let result ← attempt (handleFrame frame)
  log (.handled c frame result)
  return result

end Render.H2
