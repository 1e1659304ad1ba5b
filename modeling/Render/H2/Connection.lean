/-
The state of an HTTP/2 client connection, and how it reads and writes frames (`render-net/src/h2/connection.rs`).

The transport is a script: what `read` will return, call after call, and how the writes will go. At the end of the script
a read times out and a write succeeds. The state of a run is a `Session`, the connection with a `trace` of what happened
on it. The trace is not in the source and no function of the connection reads it: the results about runs do.

A map from stream ids is an `AList`; where the source goes through a `HashMap` in an order of its own, the functions here
go through the list.
-/
import Mathlib.Data.List.AList
import Render.Core.Recover
import Render.H2.Hpack
import Render.H2.Frame

namespace Render.H2

open Render.Core Render.Core.Comp

def maxWindowSize : ℤ := 0x7fffffff
def initialConnectionWindow : ℤ := 65535
def maxGoawayDebug : ℕ := 256
def maxEncoderTableSize : ℕ := 64 * 2 ^ 10

/-! ## Configuration, requests and responses -/

structure H2Config where
  maxFrameSize : UInt32
  initialWindowSize : UInt32
  headerTableSize : UInt32
  maxHeaderListSize : UInt32
  maxHeaderBlockSize : ℕ
  maxBodySize : ℕ
deriving DecidableEq

namespace H2Config

def default : H2Config where
  maxFrameSize := 16384
  initialWindowSize := 65535
  headerTableSize := 4096
  maxHeaderListSize := 1048576
  maxHeaderBlockSize := 64 * 2 ^ 10
  maxBodySize := 8 * 2 ^ 20

def validate (config : H2Config) : Except H2Error Unit := do
  refuse (¬ (defaultMaxFrameSize ≤ config.maxFrameSize.toNat ∧ config.maxFrameSize.toNat ≤ maxMaxFrameSize))
    (H2Error.invalidConfig s!"max_frame_size {config.maxFrameSize.toNat} is outside 16384..=16777215")
  refuse (config.initialWindowSize.toNat > 0x7fffffff) (H2Error.invalidConfig "initial_window_size exceeds 2^31-1")
  refuse (config.maxHeaderBlockSize = 0) (H2Error.invalidConfig "max_header_block_size must be non-zero")

end H2Config

/-- a request; its texts are the octets of the source's strings -/
structure H2Request where
  method : Octets
  scheme : Octets
  authority : Octets
  path : Octets
  headers : List HeaderField
  body : Option Octets
deriving DecidableEq

structure H2Response where
  streamId : StreamId
  status : ℕ
  headers : List HeaderField
  body : Octets
deriving DecidableEq

/-! ## The transport -/

/-- what one `read` returns: `data` is `Ok(count)` with `count > 0` octets in the 16 KiB buffer, `eof` is `Ok(0)` -/
inductive ReadEvent where
  | data (chunk : {octets : Octets // octets ≠ [] ∧ octets.length ≤ 16 * 1024})
  | eof
  | wouldBlock
  | timedOut
  | interrupted
  | failed (message : String)
deriving DecidableEq

/-- the octets of a read -/
def ReadEvent.octets : ReadEvent → Octets
  | data chunk => chunk.val
  | _ => []

/-- how one `write_all` and the `flush` behind it go -/
inductive WriteOutcome where
  | done
  | writeFailed (message : String)
  | flushFailed (message : String)
deriving DecidableEq

structure Transport where
  incoming : List ReadEvent
  outcomes : List WriteOutcome
deriving DecidableEq

/-! ## The connection -/

structure H2Stats where
  framesRead : ℕ
  framesWritten : ℕ
  settingsAcksSent : ℕ
  windowUpdatesSent : ℕ
  goawaySent : ℕ
  priorityFramesIgnored : ℕ
  unknownFramesIgnored : ℕ
deriving DecidableEq

structure PeerSettings where
  maxConcurrentStreams : Option UInt32
  initialWindowSize : UInt32
  maxFrameSize : UInt32
deriving DecidableEq

inductive StreamState where
  | opened
  | halfClosedLocal
  | halfClosedRemote
  | closed
deriving DecidableEq

inductive ConnectionState where
  | opened
  | closed
deriving DecidableEq

structure Stream where
  state : StreamState
  sendWindow : ℤ
  recvWindow : ℤ
  endStreamSent : Bool
  endStreamReceived : Bool
  responseStatus : Option ℕ
  responseHeaders : List HeaderField
  body : Octets
deriving DecidableEq

namespace Stream

def new (sendWindow recvWindow : UInt32) : Stream where
  state := .opened
  sendWindow := sendWindow.toNat
  recvWindow := recvWindow.toNat
  endStreamSent := false
  endStreamReceived := false
  responseStatus := none
  responseHeaders := []
  body := []

def isActive (stream : Stream) : Bool := stream.state ≠ .closed

end Stream

/-- the state of a stream whose local side ends -/
def StreamState.localEnd : StreamState → StreamState
  | opened => halfClosedLocal
  | halfClosedRemote => closed
  | other => other

/-- the state of a stream whose remote side ends -/
def StreamState.remoteEnd : StreamState → StreamState
  | opened => halfClosedRemote
  | halfClosedLocal => closed
  | other => other

structure PendingInboundHeaders where
  streamId : StreamId
  trailers : Bool
  endStream : Bool
  fragments : Octets
deriving DecidableEq

/-- the streams of a connection -/
abbrev Streams := AList fun _ : StreamId => Stream

structure H2Connection where
  io : Transport
  config : H2Config
  state : ConnectionState
  encoder : HpackEncoder
  decoder : HpackDecoder
  peer : PeerSettings
  nextStreamId : UInt32
  streams : Streams
  /-- stream-scoped failures that wait for the next call on their stream -/
  streamErrors : AList fun _ : StreamId => H2Error
  connSendWindow : ℤ
  connRecvWindow : ℤ
  pendingInbound : Option PendingInboundHeaders
  /-- what was read and is not yet split into frames -/
  readBuffer : Octets
  goaway : Option (StreamId × ErrorCode × Octets)
  stats : H2Stats

/-! ## Runs -/

/-- what happens on a connection: a frame's octets leave the read buffer, a decoded frame is dispatched to the connection
in the state `before`, that is done with a result, a frame is written (and perhaps not flushed) -/
inductive Event where
  | received (octets : Octets)
  | dispatched (before : H2Connection) (frame : Frame)
  | handled (before : H2Connection) (frame : Frame) (result : Except H2Error Unit)
  | sent (before : H2Connection) (frame : Frame)
  | unflushed (frame : Frame)

/-- a connection, and what happened on it, oldest first -/
structure Session where
  conn : H2Connection
  trace : List Event

/-- how a call ends that returns no value: with an error, or in an `expect` that fails -/
inductive Halt where
  | error (error : H2Error)
  | panic

abbrev Run := Comp Session Halt

namespace Run

def conn : Run H2Connection := check fun s => .ok s.conn

def update (f : H2Connection → H2Connection) : Run Unit := Comp.modify fun s => { s with conn := f s.conn }

def log (event : Event) : Run Unit := Comp.modify fun s => { s with trace := s.trace ++ [event] }

def raise {α : Type} (error : H2Error) : Run α := Comp.fail (.error error)

/-- an `expect` on a value that is not there -/
def panic {α : Type} : Run α := Comp.fail .panic

/-- `?` on a check -/
def propagate {α : Type} : Except H2Error α → Run α
  | .ok a => pure a
  | .error error => raise error

/-- the `Result` of a call, to be looked at; a panic goes on -/
def attempt {α : Type} (m : Run α) : Run (Except H2Error α) :=
  recover (do return .ok (← m)) fun
    | .error error => pure (.error error)
    | .panic => panic

/-- `let _ = ...` -/
def ignore (m : Run Unit) : Run Unit := do
  let _ ← attempt m

end Run

open Run

namespace H2Connection

def close (c : H2Connection) : H2Connection := { c with state := .closed }

/-- the octets that the connection can still read, those in its buffer first -/
def unread (c : H2Connection) : Octets := c.readBuffer ++ c.io.incoming.flatMap ReadEvent.octets

def putStream (c : H2Connection) (id : StreamId) (stream : Stream) : H2Connection :=
  { c with streams := c.streams.insert id stream }

def lastStreamId (c : H2Connection) : StreamId := StreamId.new (if c.nextStreamId < 2 then 0 else c.nextStreamId - 2)

end H2Connection

/-! ## Writing -/

/-- the outcome of one write -/
def nextOutcome : Run WriteOutcome := do
  let c ← conn
  match c.io.outcomes with
  | [] => return .done
  | outcome :: rest =>
    update fun c => { c with io := { c.io with outcomes := rest } }
    return outcome

def writeConnectionPreface : Run Unit := do
  match ← nextOutcome with
  | .done => return ()
  | .writeFailed message => raise (.io message)
  | .flushFailed message => raise (.io message)

def writeFrame (frame : Frame) : Run Unit := do
  let _ ← propagate (frame.encode.mapError .frame)
  match ← nextOutcome with
  | .writeFailed message =>
    update H2Connection.close
    raise (.io message)
  | .done => wrote
  | .flushFailed message =>
    wrote
    log (.unflushed frame)
    raise (.io message)
where
  wrote : Run Unit := do
    log (.sent (← conn) frame)
    update fun c => { c with stats := { c.stats with framesWritten := c.stats.framesWritten + 1 } }

def sendWindowUpdate (streamId : StreamId) (increment : UInt32) : Run Unit :=
  if increment = 0 then pure ()
  else do
    writeFrame (.windowUpdate streamId increment)
    update fun c => { c with stats := { c.stats with windowUpdatesSent := c.stats.windowUpdatesSent + 1 } }

/-! ## Reading -/

/-- takes a frame of `total` octets off the read buffer -/
def takeFrame (total : ℕ) : Run Frame := do
  let c ← conn
  let octets := c.readBuffer.take total
  update fun c =>
    { c with readBuffer := c.readBuffer.drop total, stats := { c.stats with framesRead := c.stats.framesRead + 1 } }
  log (.received octets)
  propagate ((Frame.decode octets c.config.maxFrameSize.toNat).mapError .frame)

/-- the head of the loop of `try_read_frame`: a frame that is completely buffered -/
def bufferedFrame : Run (Option Frame) := do
  let c ← conn
  let length := declaredLength c.readBuffer
  if c.readBuffer.length < 9 then return none
  else if length > c.config.maxFrameSize.toNat then
    update H2Connection.close
    raise (.frame (FrameError.connection .frameSizeError
      s!"frame length {length} exceeds configured maximum {c.config.maxFrameSize.toNat}"))
  else if c.readBuffer.length < 9 + length then return none
  else return some (← takeFrame (9 + length))

/-- the loop of `try_read_frame`, with what the transport has left to return -/
def readLoop : List ReadEvent → Run (Option Frame)
  | [] => bufferedFrame
  | event :: rest => do
    match ← bufferedFrame with
    | some frame => return some frame
    | none =>
      update fun c => { c with io := { c.io with incoming := rest } }
      match event with
      | .data chunk =>
        update fun c => { c with readBuffer := c.readBuffer ++ chunk.val }
        readLoop rest
      | .eof =>
        update H2Connection.close
        let c ← conn
        if c.readBuffer = [] then raise .connectionClosed else raise (.io "connection ended inside an HTTP/2 frame")
      | .wouldBlock => return none
      | .timedOut => return none
      | .interrupted => readLoop rest
      | .failed message =>
        update H2Connection.close
        raise (.io message)

/-- reads until one complete frame is buffered; `none` when the transport timed out -/
def tryReadFrame : Run (Option Frame) := do
  let c ← conn
  readLoop c.io.incoming

def readNextFrame : Run Frame := do
  match ← tryReadFrame with
  | some frame => return frame
  | none =>
    update H2Connection.close
    raise (.io "timed out waiting for the next HTTP/2 frame")

end Render.H2
