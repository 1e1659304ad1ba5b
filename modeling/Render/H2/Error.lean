/-
Stream identifiers, error codes and the error types of the HTTP/2 stack (`render-net/src/h2/error.rs`).

An error text that quotes octets of the peer or of the caller (`{:?}` of the octets read as UTF-8) is kept as the text
around the quotation and the octets themselves (`Detail.quoted`).
-/
import Render.Core.Integers
import Render.Core.Comp

namespace Render.H2

open Render.Core

/-- the octets of a text of ASCII characters -/
def ascii (text : String) : Octets := text.toList.map fun c => UInt8.ofNat c.toNat

/-- `u32::MAX` -/
def u32Max : ℕ := 2 ^ 32 - 1

/-- `u32::try_from(n).unwrap_or(u32::MAX)` -/
def toU32 (n : ℕ) : ℕ := if n ≤ u32Max then n else u32Max

/-! ## Stream identifiers -/

/-- a 31-bit stream identifier -/
@[ext] structure StreamId where
  get : ℕ
  lt : get < 2 ^ 31
deriving DecidableEq

namespace StreamId

/-- the pseudo stream of the connection itself -/
def connection : StreamId := ⟨0, by decide⟩

/-- masks the reserved high bit -/
def new (raw : UInt32) : StreamId :=
  ⟨raw.toNat &&& 0x7fffffff, (Nat.and_le_right.trans_lt (by decide : 0x7fffffff < 2 ^ 31))⟩

def isConnection (id : StreamId) : Bool := id.get == 0

def display (id : StreamId) : String := s!"stream {id.get}"

end StreamId

/-! ## Error codes -/

inductive ErrorCode where
  | noError
  | protocolError
  | internalError
  | flowControlError
  | settingsTimeout
  | streamClosed
  | frameSizeError
  | refusedStream
  | cancel
  | compressionError
  | connectError
  | enhanceYourCalm
  | inadequateSecurity
  | http11Required
  | unknown (value : UInt32)
deriving DecidableEq

namespace ErrorCode

def fromU32 (raw : UInt32) : ErrorCode :=
  match raw.toNat with
  | 0x0 => .noError
  | 0x1 => .protocolError
  | 0x2 => .internalError
  | 0x3 => .flowControlError
  | 0x4 => .settingsTimeout
  | 0x5 => .streamClosed
  | 0x6 => .frameSizeError
  | 0x7 => .refusedStream
  | 0x8 => .cancel
  | 0x9 => .compressionError
  | 0xa => .connectError
  | 0xb => .enhanceYourCalm
  | 0xc => .inadequateSecurity
  | 0xd => .http11Required
  | _ => .unknown raw

def asU32 : ErrorCode → UInt32
  | noError => 0x0
  | protocolError => 0x1
  | internalError => 0x2
  | flowControlError => 0x3
  | settingsTimeout => 0x4
  | streamClosed => 0x5
  | frameSizeError => 0x6
  | refusedStream => 0x7
  | cancel => 0x8
  | compressionError => 0x9
  | connectError => 0xa
  | enhanceYourCalm => 0xb
  | inadequateSecurity => 0xc
  | http11Required => 0xd
  | unknown value => value

def display : ErrorCode → String
  | noError => "NO_ERROR"
  | protocolError => "PROTOCOL_ERROR"
  | internalError => "INTERNAL_ERROR"
  | flowControlError => "FLOW_CONTROL_ERROR"
  | settingsTimeout => "SETTINGS_TIMEOUT"
  | streamClosed => "STREAM_CLOSED"
  | frameSizeError => "FRAME_SIZE_ERROR"
  | refusedStream => "REFUSED_STREAM"
  | cancel => "CANCEL"
  | compressionError => "COMPRESSION_ERROR"
  | connectError => "CONNECT_ERROR"
  | enhanceYourCalm => "ENHANCE_YOUR_CALM"
  | inadequateSecurity => "INADEQUATE_SECURITY"
  | http11Required => "HTTP_1_1_REQUIRED"
  | unknown value => s!"unknown error code {value.toNat}"

end ErrorCode

/-! ## Frame errors -/

inductive FrameError where
  | closed
  | io (message : String)
  /-- a protocol violation: of the connection when it names no stream -/
  | protocol (code : ErrorCode) (streamId : Option StreamId) (detail : String)
deriving DecidableEq

namespace FrameError

def connection (code : ErrorCode) (detail : String) : FrameError := .protocol code none detail

def stream (id : StreamId) (code : ErrorCode) (detail : String) : FrameError := .protocol code (some id) detail

def code : FrameError → ErrorCode
  | closed => .noError
  | io _ => .noError
  | protocol code _ _ => code

def streamId : FrameError → Option StreamId
  | protocol _ id _ => id
  | closed => none
  | io _ => none

def isConnectionError : FrameError → Bool
  | protocol _ none _ => true
  | _ => false

def display : FrameError → String
  | closed => "peer closed the connection"
  | io message => s!"frame I/O failed: {message}"
  | protocol code (some id) detail => s!"{id.display}: {code.display}: {detail}"
  | protocol code none detail => s!"connection: {code.display}: {detail}"

end FrameError

/-! ## HPACK errors -/

inductive HpackError where
  | invalidIndex (index : ℕ)
  | indexZero
  | integerOverflow
  | truncatedInteger
  | truncatedString (expected remaining : ℕ)
  | stringTooLong (length limit : ℕ)
  | sizeUpdateNotAtStart
  | sizeUpdateTooLarge (requested limit : ℕ)
  | invalidHuffmanCode
  | eosInHuffman
  | invalidHuffmanPadding
  | headerListTooLarge (limit : ℕ)
deriving DecidableEq

def HpackError.display : HpackError → String
  | invalidIndex index => s!"invalid HPACK table index {index}"
  | indexZero => "HPACK index 0 is reserved"
  | integerOverflow => "HPACK integer overflow"
  | truncatedInteger => "truncated HPACK integer"
  | truncatedString expected remaining =>
    s!"truncated HPACK string: declared {expected} bytes, {remaining} remain"
  | stringTooLong length limit => s!"HPACK string of {length} bytes exceeds limit {limit}"
  | sizeUpdateNotAtStart => "HPACK dynamic table size update after a header field"
  | sizeUpdateTooLarge requested limit => s!"HPACK table size update to {requested} exceeds limit {limit}"
  | invalidHuffmanCode => "invalid HPACK Huffman code"
  | eosInHuffman => "HPACK Huffman string contains EOS"
  | invalidHuffmanPadding => "invalid HPACK Huffman padding"
  | headerListTooLarge limit => s!"decoded HPACK header list exceeds limit {limit}"

/-! ## Errors of the connection -/

inductive UnsupportedFeature where
  | serverPush
  | priorityScheduling
  | tlsAlpn
  | connect
deriving DecidableEq

def UnsupportedFeature.display : UnsupportedFeature → String
  | serverPush => "HTTP/2 server push"
  | priorityScheduling => "HTTP/2 priority scheduling"
  | tlsAlpn => "TLS ALPN negotiation"
  | connect => "HTTP/2 CONNECT"

/-- an error text, which may quote octets -/
inductive Detail where
  | text (text : String)
  | quoted (before : String) (octets : Octets) (after : String)
deriving DecidableEq

inductive H2Error where
  | frame (error : FrameError)
  | hpack (error : HpackError)
  | io (message : String)
  | connectionClosed
  | protocol (code : ErrorCode) (detail : String)
  | stream (streamId : StreamId) (code : ErrorCode) (detail : Detail)
  | streamReset (streamId : StreamId) (code : ErrorCode)
  | goAway (lastStreamId : StreamId) (code : ErrorCode) (debugData : Octets)
  | unsupported (feature : UnsupportedFeature)
  | invalidConfig (message : String)
  | invalidRequest (message : Detail)
  | concurrentStreamLimit (limit : ℕ)
  | streamIdExhausted
  | responseBodyTooLarge (limit : ℕ)
  | headerBlockTooLarge (limit : ℕ)
  | headerListTooLarge (limit : ℕ)
deriving DecidableEq

namespace H2Error

/-- the code that goes with `GOAWAY` or `RST_STREAM` -/
def code : H2Error → ErrorCode
  | frame error => error.code
  | hpack _ => .compressionError
  | protocol code _ => code
  | stream _ code _ => code
  | streamReset _ code => code
  | goAway _ code _ => code
  | unsupported .serverPush => .protocolError
  | responseBodyTooLarge _ => .enhanceYourCalm
  | headerBlockTooLarge _ => .enhanceYourCalm
  | headerListTooLarge _ => .enhanceYourCalm
  | _ => .noError

/-- the stream of a stream-scoped error -/
def streamId : H2Error → Option StreamId
  | frame error => error.streamId
  | stream id _ _ => some id
  | streamReset id _ => some id
  | _ => none

/-- does this failure tear the connection down -/
def isConnectionError : H2Error → Bool
  | frame error => error.isConnectionError
  | hpack _ => true
  | protocol _ _ => true
  | headerBlockTooLarge _ => true
  | headerListTooLarge _ => true
  | unsupported .serverPush => true
  | _ => false

/-- the text of a connection error, which becomes the debug data of `GOAWAY`; no other error is ever written there -/
def connectionText : H2Error → String
  | frame error => error.display
  | hpack error => s!"HPACK: {error.display}"
  | protocol code detail => s!"{code.display}: {detail}"
  | unsupported feature => s!"unsupported HTTP/2 feature: {feature.display}"
  | headerBlockTooLarge limit => s!"HTTP/2 header block exceeds limit {limit}"
  | headerListTooLarge limit => s!"HTTP/2 header list exceeds limit {limit}"
  | _ => ""

end H2Error

end Render.H2
