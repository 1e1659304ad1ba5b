/-
The frame codec (`render-net/src/h2/frame.rs`): frame types, the public constructors, `encode` and `decode`.

A payload length is a natural number; `header.length` saturates at `u32::MAX` where a constructor makes it so. Numbers on
the wire are big-endian octets (`toBe`, `ofBe`).
-/
import Render.H2.Error

namespace Render.H2

open Render.Core

def defaultMaxFrameSize : ℕ := 16384

def maxMaxFrameSize : ℕ := 16777215

def flagAck : UInt8 := 0x1
def flagEndStream : UInt8 := 0x1
def flagEndHeaders : UInt8 := 0x4
def flagPadded : UInt8 := 0x8
def flagPriority : UInt8 := 0x20

/-- is a flag of a flags octet set -/
def hasFlag (flags flag : UInt8) : Bool := flags &&& flag != 0

/-- a flag when `set` holds, no flag otherwise -/
def flagIf (set : Bool) (flag : UInt8) : UInt8 := if set then flag else 0

/-! ## Frame types -/

inductive FrameType where
  | data
  | headers
  | priority
  | rstStream
  | settings
  | pushPromise
  | ping
  | goAway
  | windowUpdate
  | continuation
  | unknown (value : UInt8)
deriving DecidableEq

namespace FrameType

def fromU8 (raw : UInt8) : FrameType :=
  match raw.toNat with
  | 0x0 => .data
  | 0x1 => .headers
  | 0x2 => .priority
  | 0x3 => .rstStream
  | 0x4 => .settings
  | 0x5 => .pushPromise
  | 0x6 => .ping
  | 0x7 => .goAway
  | 0x8 => .windowUpdate
  | 0x9 => .continuation
  | _ => .unknown raw

def asU8 : FrameType → UInt8
  | data => 0x0
  | headers => 0x1
  | priority => 0x2
  | rstStream => 0x3
  | settings => 0x4
  | pushPromise => 0x5
  | ping => 0x6
  | goAway => 0x7
  | windowUpdate => 0x8
  | continuation => 0x9
  | unknown value => value

def name : FrameType → String
  | data => "DATA"
  | headers => "HEADERS"
  | priority => "PRIORITY"
  | rstStream => "RST_STREAM"
  | settings => "SETTINGS"
  | pushPromise => "PUSH_PROMISE"
  | ping => "PING"
  | goAway => "GOAWAY"
  | windowUpdate => "WINDOW_UPDATE"
  | continuation => "CONTINUATION"
  | unknown _ => "UNKNOWN"

end FrameType

structure FrameHeader where
  length : ℕ
  frameType : FrameType
  flags : UInt8
  streamId : StreamId
deriving DecidableEq

def FrameHeader.endStream (header : FrameHeader) : Bool := hasFlag header.flags flagEndStream

structure Priority where
  exclusive : Bool
  dependency : StreamId
  weight : UInt8
deriving DecidableEq

def Priority.encode (priority : Priority) : Octets :=
  toBe 4 (priority.dependency.get ||| if priority.exclusive then 0x80000000 else 0) ++ [priority.weight]

inductive SettingId where
  | headerTableSize
  | enablePush
  | maxConcurrentStreams
  | initialWindowSize
  | maxFrameSize
  | maxHeaderListSize
  | unknown (value : UInt16)
deriving DecidableEq

namespace SettingId

def fromU16 (raw : UInt16) : SettingId :=
  match raw.toNat with
  | 0x1 => .headerTableSize
  | 0x2 => .enablePush
  | 0x3 => .maxConcurrentStreams
  | 0x4 => .initialWindowSize
  | 0x5 => .maxFrameSize
  | 0x6 => .maxHeaderListSize
  | _ => .unknown raw

def asU16 : SettingId → UInt16
  | headerTableSize => 0x1
  | enablePush => 0x2
  | maxConcurrentStreams => 0x3
  | initialWindowSize => 0x4
  | maxFrameSize => 0x5
  | maxHeaderListSize => 0x6
  | unknown value => value

end SettingId

structure Setting where
  id : SettingId
  value : UInt32
deriving DecidableEq

/-- typed payloads; padding has been removed -/
inductive FrameKind where
  | data (data : Octets)
  | headers (endStream endHeaders : Bool) (priority : Option Priority) (fragment : Octets)
  | priority (priority : Priority)
  | rstStream (errorCode : ErrorCode)
  | settings (ack : Bool) (settings : List Setting)
  | pushPromise (endHeaders : Bool) (promisedStreamId : StreamId) (fragment : Octets)
  | ping (ack : Bool) (payload : Vector UInt8 8)
  | goAway (lastStreamId : StreamId) (errorCode : ErrorCode) (debugData : Octets)
  | windowUpdate (increment : UInt32)
  | continuation (endHeaders : Bool) (fragment : Octets)
  | unknown (frameType : UInt8) (payload : Octets)
deriving DecidableEq

/-- a frame; `header.length` is the length on the wire, padding included -/
structure Frame where
  header : FrameHeader
  kind : FrameKind
deriving DecidableEq

namespace Frame

/-! ## Constructors -/

def data (streamId : StreamId) (endStream : Bool) (data : Octets) : Frame where
  header := ⟨toU32 data.length, .data, flagIf endStream flagEndStream, streamId⟩
  kind := .data data

def headers (streamId : StreamId) (endStream endHeaders : Bool) (priority : Option Priority) (fragment : Octets) :
    Frame where
  header :=
    { length := toU32 (fragment.length + if priority.isSome then 5 else 0)
      frameType := .headers
      flags := flagIf endStream flagEndStream ||| flagIf endHeaders flagEndHeaders |||
        flagIf priority.isSome flagPriority
      streamId := streamId }
  kind := .headers endStream endHeaders priority fragment

def priority (streamId : StreamId) (priority : Priority) : Frame where
  header := ⟨5, .priority, 0, streamId⟩
  kind := .priority priority

def rstStream (streamId : StreamId) (errorCode : ErrorCode) : Frame where
  header := ⟨4, .rstStream, 0, streamId⟩
  kind := .rstStream errorCode

def settings (settings : List Setting) : Frame where
  header := ⟨toU32 (settings.length * 6), .settings, 0, .connection⟩
  kind := .settings false settings

def settingsAck : Frame where
  header := ⟨0, .settings, flagAck, .connection⟩
  kind := .settings true []

def pushPromise (streamId promisedStreamId : StreamId) (endHeaders : Bool) (fragment : Octets) : Frame where
  header := ⟨toU32 (4 + fragment.length), .pushPromise, flagIf endHeaders flagEndHeaders, streamId⟩
  kind := .pushPromise endHeaders promisedStreamId fragment

def ping (ack : Bool) (payload : Vector UInt8 8) : Frame where
  header := ⟨8, .ping, flagIf ack flagAck, .connection⟩
  kind := .ping ack payload

def goaway (lastStreamId : StreamId) (errorCode : ErrorCode) (debugData : Octets) : Frame where
  header := ⟨toU32 (8 + debugData.length), .goAway, 0, .connection⟩
  kind := .goAway lastStreamId errorCode debugData

def windowUpdate (streamId : StreamId) (increment : UInt32) : Frame where
  header := ⟨4, .windowUpdate, 0, streamId⟩
  kind := .windowUpdate increment

def continuation (streamId : StreamId) (endHeaders : Bool) (fragment : Octets) : Frame where
  header := ⟨toU32 fragment.length, .continuation, flagIf endHeaders flagEndHeaders, streamId⟩
  kind := .continuation endHeaders fragment

end Frame

/-! ## Checks both directions share -/

def validateStream (streamId : StreamId) (frameType : FrameType) : Except FrameError Unit :=
  refuse streamId.isConnection
    (FrameError.connection .protocolError s!"{frameType.name} frame requires a non-zero stream")

/-- frames of the connection itself: `SETTINGS`, `PING` and `GOAWAY` -/
def validateConnection (streamId : StreamId) (frameType : FrameType) : Except FrameError Unit :=
  refuse (!streamId.isConnection)
    (FrameError.connection .protocolError s!"{frameType.name} frame on a non-zero stream")

def validateSetting (id : SettingId) (value : UInt32) : Except FrameError Unit :=
  match id with
  | .enablePush => refuse (value.toNat > 1)
      (FrameError.connection .protocolError "SETTINGS_ENABLE_PUSH must be 0 or 1")
  | .initialWindowSize => refuse (value.toNat > 0x7fffffff)
      (FrameError.connection .flowControlError "SETTINGS_INITIAL_WINDOW_SIZE exceeds 2^31-1")
  | .maxFrameSize => refuse (¬ (defaultMaxFrameSize ≤ value.toNat ∧ value.toNat ≤ maxMaxFrameSize))
      (FrameError.connection .protocolError "SETTINGS_MAX_FRAME_SIZE is outside the legal range")
  | _ => .ok ()

/-! ## Encoding -/

def encodeSetting (setting : Setting) : Octets := toBe 2 setting.id.asU16.toNat ++ toBe 4 setting.value.toNat

/-- the loop over the settings of a `SETTINGS` frame -/
def encodeSettings : List Setting → Except FrameError Octets
  | [] => .ok []
  | setting :: rest => do
    validateSetting setting.id setting.value
    let payload ← encodeSettings rest
    return encodeSetting setting ++ payload

/-- type, flags, stream and payload of a frame -/
def Frame.encodeParts (frame : Frame) : Except FrameError (FrameType × UInt8 × StreamId × Octets) :=
  let streamId := frame.header.streamId
  match frame.kind with
  | .data data => do
    validateStream streamId .data
    return (.data, flagIf frame.header.endStream flagEndStream, streamId, data)
  | .headers endStream endHeaders priority fragment => do
    validateStream streamId .headers
    let flags := flagIf endStream flagEndStream ||| flagIf endHeaders flagEndHeaders
    match priority with
    | some priority =>
      refuse (priority.dependency = streamId)
        (FrameError.stream streamId .protocolError "HEADERS priority depends on its own stream")
      return (.headers, flags ||| flagPriority, streamId, priority.encode ++ fragment)
    | none => return (.headers, flags, streamId, fragment)
  | .priority priority => do
    validateStream streamId .priority
    refuse (priority.dependency = streamId)
      (FrameError.stream streamId .protocolError "PRIORITY frame depends on itself")
    return (.priority, 0, streamId, priority.encode)
  | .rstStream errorCode => do
    validateStream streamId .rstStream
    return (.rstStream, 0, streamId, toBe 4 errorCode.asU32.toNat)
  | .settings ack settings => do
    validateConnection streamId .settings
    let payload ← encodeSettings settings
    refuse (ack ∧ payload ≠ [])
      (FrameError.connection .frameSizeError "SETTINGS ACK with a non-empty payload")
    return (.settings, flagIf ack flagAck, .connection, payload)
  | .pushPromise endHeaders promisedStreamId fragment => do
    validateStream streamId .pushPromise
    refuse promisedStreamId.isConnection
      (FrameError.connection .protocolError "PUSH_PROMISE cannot promise stream 0")
    return (.pushPromise, flagIf endHeaders flagEndHeaders, streamId, toBe 4 promisedStreamId.get ++ fragment)
  | .ping ack payload => do
    validateConnection streamId .ping
    return (.ping, flagIf ack flagAck, .connection, payload.toList)
  | .goAway lastStreamId errorCode debugData => do
    validateConnection streamId .goAway
    return (.goAway, 0, .connection, toBe 4 lastStreamId.get ++ toBe 4 errorCode.asU32.toNat ++ debugData)
  | .windowUpdate increment => do
    refuse (increment.toNat = 0 ∨ increment.toNat > 0x7fffffff)
      (FrameError.connection .protocolError "WINDOW_UPDATE increment must be in 1..=2^31-1")
    return (.windowUpdate, 0, streamId, toBe 4 increment.toNat)
  | .continuation endHeaders fragment => do
    validateStream streamId .continuation
    return (.continuation, flagIf endHeaders flagEndHeaders, streamId, fragment)
  | .unknown frameType payload => .ok (.unknown frameType, 0, streamId, payload)

/-- a frame on the wire -/
def assemble (frameType : FrameType) (flags : UInt8) (streamId : StreamId) (payload : Octets) : Octets :=
  toBe 3 payload.length ++ [frameType.asU8, flags] ++ toBe 4 streamId.get ++ payload

def Frame.encode (frame : Frame) : Except FrameError Octets := do
  let (frameType, flags, streamId, payload) ← frame.encodeParts
  refuse (payload.length > u32Max) (FrameError.connection .frameSizeError "frame payload too large")
  refuse (payload.length > maxMaxFrameSize)
    (FrameError.connection .frameSizeError "frame payload exceeds the 24-bit length field")
  return assemble frameType flags streamId payload

/-! ## Decoding -/

/-- the number in the first four octets -/
def readU32 (octets : Octets) : UInt32 := UInt32.ofNat (ofBe (octets.take 4))

def requireLength (length expected : ℕ) (frameType : FrameType) : Except FrameError Unit :=
  refuse (length ≠ expected)
    (FrameError.connection .frameSizeError s!"{frameType.name} frame length {length} is not {expected}")

def stripPadding (flags : UInt8) (payload : Octets) : Except FrameError Octets :=
  if hasFlag flags flagPadded then
    match payload with
    | [] => .error (FrameError.connection .protocolError "padded frame has no Pad Length octet")
    | paddingLength :: rest =>
      if paddingLength.toNat > rest.length then
        .error (FrameError.connection .protocolError "padding is longer than the frame payload")
      else .ok (rest.take (rest.length - paddingLength.toNat))
  else .ok payload

def decodePriority (streamId : StreamId) (octets : Octets) : Except FrameError Priority := do
  let raw := readU32 octets
  let dependency := StreamId.new raw
  refuse (dependency = streamId ∧ ¬ streamId.isConnection)
    (FrameError.stream streamId .protocolError "stream depends on itself")
  return { exclusive := raw &&& 0x80000000 != 0, dependency, weight := octets.getD 4 0 }

def parsePriority (flags : UInt8) (streamId : StreamId) (body : Octets) :
    Except FrameError (Option Priority × Octets) :=
  if hasFlag flags flagPriority then do
    refuse (body.length < 5)
      (FrameError.connection .frameSizeError "HEADERS priority block is shorter than 5 octets")
    let priority ← decodePriority streamId (body.take 5)
    return (some priority, body.drop 5)
  else .ok (none, body)

/-- the loop over the six-octet chunks of a `SETTINGS` payload -/
def decodeSettings : Octets → Except FrameError (List Setting)
  | a :: b :: c :: d :: e :: f :: rest => do
    let id := SettingId.fromU16 (UInt16.ofNat (ofBe [a, b]))
    let value := readU32 [c, d, e, f]
    validateSetting id value
    let settings ← decodeSettings rest
    return ⟨id, value⟩ :: settings
  | _ => .ok []

/-- the eight octets of a `PING` payload of the right length -/
def pingPayload (payload : Octets) : Vector UInt8 8 := Vector.ofFn fun i => payload.getD i 0

/-- the typed payload of a frame -/
def decodeKind (length : ℕ) (frameType : FrameType) (flags : UInt8) (streamId : StreamId) (payload : Octets) :
    Except FrameError FrameKind :=
  match frameType with
  | .data => do
    validateStream streamId frameType
    return .data (← stripPadding flags payload)
  | .headers => do
    validateStream streamId frameType
    let body ← stripPadding flags payload
    let (priority, fragment) ← parsePriority flags streamId body
    return .headers (hasFlag flags flagEndStream) (hasFlag flags flagEndHeaders) priority fragment
  | .priority => do
    validateStream streamId frameType
    requireLength length 5 frameType
    return .priority (← decodePriority streamId payload)
  | .rstStream => do
    validateStream streamId frameType
    requireLength length 4 frameType
    return .rstStream (ErrorCode.fromU32 (readU32 payload))
  | .settings => do
    validateConnection streamId frameType
    if hasFlag flags flagAck then
      refuse (length ≠ 0) (FrameError.connection .frameSizeError "SETTINGS ACK must have an empty payload")
      return .settings true []
    else
      refuse (length % 6 ≠ 0)
        (FrameError.connection .frameSizeError "SETTINGS payload length is not a multiple of 6")
      return .settings false (← decodeSettings payload)
  | .pushPromise => do
    validateStream streamId frameType
    let body ← stripPadding flags payload
    refuse (body.length < 4)
      (FrameError.connection .frameSizeError "PUSH_PROMISE is shorter than its promised stream id")
    let promisedStreamId := StreamId.new (readU32 body)
    refuse promisedStreamId.isConnection
      (FrameError.connection .protocolError "PUSH_PROMISE promises stream 0")
    return .pushPromise (hasFlag flags flagEndHeaders) promisedStreamId (body.drop 4)
  | .ping => do
    validateConnection streamId frameType
    requireLength length 8 frameType
    return .ping (hasFlag flags flagAck) (pingPayload payload)
  | .goAway => do
    validateConnection streamId frameType
    refuse (length < 8)
      (FrameError.connection .frameSizeError "GOAWAY payload is shorter than 8 octets")
    return .goAway (StreamId.new (readU32 payload)) (ErrorCode.fromU32 (readU32 (payload.drop 4))) (payload.drop 8)
  | .windowUpdate => do
    requireLength length 4 frameType
    let increment := readU32 payload &&& 0x7fffffff
    refuse (increment = 0) (.protocol .protocolError (if streamId.isConnection then none else some streamId)
      "WINDOW_UPDATE increment is zero")
    return .windowUpdate increment
  | .continuation => do
    validateStream streamId frameType
    return .continuation (hasFlag flags flagEndHeaders) payload
  | .unknown value => .ok (.unknown value payload)

def decodeFrame (length : ℕ) (frameType : FrameType) (flags : UInt8) (streamId : StreamId) (payload : Octets) :
    Except FrameError Frame := do
  let kind ← decodeKind length frameType flags streamId payload
  return ⟨⟨length, frameType, flags, streamId⟩, kind⟩

/-- the payload length a frame header declares -/
def declaredLength (octets : Octets) : ℕ := ofBe (octets.take 3)

/-- decodes exactly one complete frame -/
def Frame.decode (octets : Octets) (maxFrameSize : ℕ) : Except FrameError Frame := do
  refuse (octets.length < 9) (FrameError.connection .frameSizeError "truncated frame header")
  let length := declaredLength octets
  refuse (octets.length ≠ 9 + length) (FrameError.connection .frameSizeError
    s!"frame declares {length} payload bytes, buffer holds {octets.length - 9}")
  refuse (length > maxFrameSize) (FrameError.connection .frameSizeError
    s!"frame length {length} exceeds configured maximum {maxFrameSize}")
  decodeFrame length (FrameType.fromU8 (octets.getD 3 0)) (octets.getD 4 0) (StreamId.new (readU32 (octets.drop 5)))
    (octets.drop 9)

end Render.H2
