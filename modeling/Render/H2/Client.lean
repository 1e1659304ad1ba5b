/-
The calls of an HTTP/2 client connection (`render-net/src/h2/connection.rs`), and the sessions that they reach from
`connect` (`Reachable`).

The loops of the source run on a fuel that is never used up: a turn of a loop that pumps a frame takes octets off what the
transport has left (`H2Connection.unread`), a turn that sends takes octets off the body.
-/
import Render.H2.Handlers

namespace Render.H2

open Render.Core Render.Core.Comp Run

/-- `i64::MAX` -/
def i64Max : ℕ := 2 ^ 63 - 1

/-! ## Frames for the streams -/

/-- the loop behind a failed or a successful read: a frame is handled, and what fails is reported -/
def pumpOneFrame : Run Unit := do
  let result ← attempt do
    let frame ← readNextFrame
    propagate (← dispatch frame)
  match result with
  | .ok () => pure ()
  | .error error => do
    reportError error
    raise error

def ensureOpen : Run Unit := do
  let c ← conn
  match c.goaway with
  | some (lastStreamId, code, debugData) => raise (.goAway lastStreamId code debugData)
  | none => if c.state = .closed then raise .connectionClosed else pure ()

/-- what `poll_frame` does with a frame that was refused -/
def pollError (error : H2Error) : Run Bool := do
  reportError error
  if error.isConnectionError || error.isFinal then raise error
  else
    match error.streamId with
    | some streamId => do
      update fun c => { c with streamErrors := c.streamErrors.insert streamId error }
      return true
    | none => raise error

def pollFrame : Run Bool := do
  ensureOpen
  match ← tryReadFrame with
  | none => return false
  | some frame =>
    match ← dispatch frame with
    | .ok () => return true
    | .error error => pollError error

/-! ## Responses -/

def completedResponse (c : H2Connection) (streamId : StreamId) : Except H2Error (Option H2Response) :=
  match c.streams.lookup streamId with
  | none => .error (invalidRequest s!"unknown {streamId.display}")
  | some stream =>
    if stream.endStreamReceived then
      match stream.responseStatus with
      | none => .error (streamError streamId .protocolError "response ended without a final :status")
      | some status => .ok (some ⟨streamId, status, stream.responseHeaders, stream.body⟩)
    else .ok none

/-- one turn of the loop of `read_response` -/
def readResponseTurn (streamId : StreamId) (_ : Unit) : Run (Unit ⊕ H2Response) := do
  match ← propagate (completedResponse (← conn) streamId) with
  | some response => return .inr response
  | none => do
    pumpOneFrame
    return .inl ()

def readResponse (streamId : StreamId) : Run H2Response := do
  ensureOpen
  let c ← conn
  if (c.streams.lookup streamId).isNone then
    raise (invalidRequest s!"{streamId.display} was not opened by this connection")
  else loop (readResponseTurn streamId) (c.unread.length + 1) ()

def takeResponse (streamId : StreamId) : Run (Option H2Response) := do
  let c ← conn
  match c.streamErrors.lookup streamId with
  | some error => do
    update fun c => { c with streamErrors := c.streamErrors.erase streamId, streams := c.streams.erase streamId }
    raise error
  | none =>
    match ← propagate (completedResponse c streamId) with
    | none => return none
    | some response => do
      update fun c => { c with streams := c.streams.erase streamId }
      return some response

def cancelStream (streamId : StreamId) : Run Unit := do
  let c ← conn
  match c.streams.lookup streamId with
  | none => pure ()
  | some stream => do
    update fun c => { c with streams := c.streams.erase streamId, streamErrors := c.streamErrors.erase streamId }
    if stream.state = .closed ∨ c.state = .closed then pure ()
    else writeFrame (.rstStream streamId .cancel)

def close : Run Unit := do
  let c ← conn
  if c.state = .opened then do
    let result ← attempt (writeFrame (.goaway c.lastStreamId .noError []))
    update fun c => { c with stats := { c.stats with goawaySent := c.stats.goawaySent + 1 }, state := .closed }
    propagate result
  else pure ()

/-! ## Requests -/

def allocateStreamId : Run StreamId := do
  let c ← conn
  if c.nextStreamId > 0x7fffffff then raise .streamIdExhausted
  else do
    update fun c => { c with nextStreamId := c.nextStreamId + 2 }
    return StreamId.new c.nextStreamId

/-- one `CONTINUATION` of a header block that is longer than a frame -/
def sendContinuation (streamId : StreamId) (max : ℕ) (rest : Octets) : Run (Octets ⊕ Unit) :=
  if rest = [] then return .inr ()
  else do
    writeFrame (.continuation streamId (rest.length ≤ max) (rest.take max))
    return .inl (rest.drop max)

def sendHeaderBlock (streamId : StreamId) (endStream : Bool) (block : Octets) : Run Unit := do
  let c ← conn
  let max := c.peer.maxFrameSize.toNat
  writeFrame (.headers streamId endStream (block.length ≤ max) none (block.take max))
  loop (sendContinuation streamId max) (block.length + 1) (block.drop max)

/-- the octets that both windows allow -/
def H2Connection.available (c : H2Connection) (streamId : StreamId) : ℤ :=
  max (min c.connSendWindow ((c.streams.lookup streamId).elim 0 Stream.sendWindow)) 0

/-- one turn of the loop that waits for the windows to open -/
def awaitWindowTurn (streamId : StreamId) (_ : Unit) : Run (Unit ⊕ ℤ) := do
  let c ← conn
  if (c.streams.lookup streamId).any Stream.endStreamReceived then
    raise (streamError streamId .streamClosed "peer ended the stream before the request body was sent")
  else if c.available streamId > 0 then return .inr (c.available streamId)
  else do
    pumpOneFrame
    return .inl ()

def awaitWindow (streamId : StreamId) : Run ℤ := do
  let c ← conn
  loop (awaitWindowTurn streamId) (c.unread.length + 1) ()

/-- the windows are debited for `sent` octets -/
def debitWindows (streamId : StreamId) (sent : ℕ) : Run Unit := do
  update fun c => { c with connSendWindow := c.connSendWindow - sent }
  let c ← conn
  whenSome (c.streams.lookup streamId) fun stream =>
    update fun c => c.putStream streamId { stream with sendWindow := stream.sendWindow - sent }

/-- one `DATA` frame, and the windows it takes its octets from -/
def sendData (streamId : StreamId) (endStream : Bool) (data : Octets) : Run Unit := do
  writeFrame (.data streamId endStream data)
  if data.length > i64Max then panic else debitWindows streamId data.length

/-- one turn of the loop of `send_body`, with the octets of the body that are left -/
def sendBodyTurn (streamId : StreamId) (rest : Octets) : Run (Octets ⊕ Unit) :=
  if rest = [] then return .inr ()
  else do
    let available ← awaitWindow streamId
    let c ← conn
    let chunk := min (min available.toNat c.peer.maxFrameSize.toNat) rest.length
    sendData streamId (chunk = rest.length) (rest.take chunk)
    when (chunk = rest.length) (markLocalEnd streamId)
    return .inl (rest.drop chunk)

def sendBody (streamId : StreamId) (body : Octets) : Run Unit := loop (sendBodyTurn streamId) (body.length + 1) body

/-- what follows the header block of a request -/
def sendRest (streamId : StreamId) (body : Octets) : Run Unit :=
  if body = [] then markLocalEnd streamId else sendBody streamId body

/-- the limit of the peer on active streams -/
def checkConcurrency (c : H2Connection) : Except H2Error Unit :=
  match c.peer.maxConcurrentStreams with
  | none => .ok ()
  | some limit =>
    refuse ((c.streams.entries.filter fun entry => entry.2.isActive).length ≥ limit.toNat)
      (.concurrentStreamLimit limit.toNat)

/-- the header list becomes a block, and a stream is opened for it: the new stream and the block -/
def openStream (request : H2Request) : Run (StreamId × Octets) := do
  let c ← conn
  let encoded := c.encoder.encode (requestFields request)
  update fun c => { c with encoder := encoded.2 }
  let streamId ← allocateStreamId
  update fun c => c.putStream streamId (Stream.new c.peer.initialWindowSize c.config.initialWindowSize)
  return (streamId, encoded.1)

def sendRequest (request : H2Request) : Run StreamId := do
  ensureOpen
  propagate (validateRequest request)
  propagate (checkConcurrency (← conn))
  let opened ← openStream request
  let body := request.body.getD []
  sendHeaderBlock opened.1 (body = []) opened.2
  sendRest opened.1 body
  return opened.1

/-! ## The handshake -/

def localSettings (config : H2Config) : List Setting :=
  [⟨.headerTableSize, config.headerTableSize⟩, ⟨.enablePush, 0⟩, ⟨.initialWindowSize, config.initialWindowSize⟩,
    ⟨.maxFrameSize, config.maxFrameSize⟩, ⟨.maxHeaderListSize, config.maxHeaderListSize⟩]

def sendLocalSettings : Run Unit := do
  let c ← conn
  writeFrame (.settings (localSettings c.config))
  if c.config.initialWindowSize > 65535 then do
    writeFrame (.windowUpdate .connection (c.config.initialWindowSize - 65535))
    update fun c =>
      { c with
        stats := { c.stats with windowUpdatesSent := c.stats.windowUpdatesSent + 1 }
        connRecvWindow := c.config.initialWindowSize.toNat }
  else pure ()

def readInitialSettings : Run Unit := do
  let frame ← readNextFrame
  match frame.kind with
  | .settings false settings => acceptSettings settings
  | .settings true _ => raise (protocolError "server preface must start with non-ACK SETTINGS")
  | _ => raise (protocolError "server preface must start with SETTINGS")

/-- the connection that `connect` starts with -/
def H2Connection.start (io : Transport) (config : H2Config) : H2Connection where
  io := io
  config := config
  state := .opened
  encoder := HpackEncoder.new 4096
  decoder := (HpackDecoder.new config.headerTableSize.toNat).withHeaderListLimit config.maxHeaderListSize.toNat
  peer := ⟨none, 65535, 16384⟩
  nextStreamId := 1
  streams := ∅
  streamErrors := ∅
  connSendWindow := initialConnectionWindow
  connRecvWindow := initialConnectionWindow
  pendingInbound := none
  readBuffer := []
  goaway := none
  stats := ⟨0, 0, 0, 0, 0, 0, 0⟩

/-- `connect`, on the session that holds the new connection -/
def connect : Run Unit := do
  let c ← conn
  propagate c.config.validate
  writeConnectionPreface
  sendLocalSettings
  match ← attempt readInitialSettings with
  | .ok () => pure ()
  | .error error => do
    when error.isConnectionError (failConnection error)
    raise error

/-! ## Sessions -/

/-- a call on a connection -/
inductive Call where
  | sendRequest (request : H2Request)
  | readResponse (streamId : StreamId)
  | pollFrame
  | takeResponse (streamId : StreamId)
  | cancelStream (streamId : StreamId)
  | close

/-- runs a call, and leaves its value out -/
def Call.run : Call → Run Unit
  | .sendRequest request => do let _ ← H2.sendRequest request
  | .readResponse streamId => do let _ ← H2.readResponse streamId
  | .pollFrame => do let _ ← H2.pollFrame
  | .takeResponse streamId => do let _ ← H2.takeResponse streamId
  | .cancelStream streamId => H2.cancelStream streamId
  | .close => H2.close

/-- the sessions after `connect` has returned a connection and any calls have returned -/
inductive Reachable : Session → Prop
  | connect {io : Transport} {config : H2Config} {s : Session}
      (hrun : H2.connect ⟨.start io config, []⟩ = some (.ok (), s)) : Reachable s
  | call {s t : Session} {call : Call} {result : Except Halt Unit} (hs : Reachable s)
      (hrun : call.run s = some (result, t)) (hreturned : result ≠ .error .panic) : Reachable t

end Render.H2
