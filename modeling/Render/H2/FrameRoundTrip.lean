/-
What the frame codec preserves.

Encoding and decoding are written twice in the source, once per direction. They are compared payload by payload
(`decodeKind_encodeParts`: what `encode_parts` writes for a frame, `decode_frame` reads back) and then on the wire
(`decode_assemble`). Results:

- `decode_encode`: a frame made by a constructor, with error codes and setting ids spelled the canonical way, decodes to
  itself, header included.
- `encode_decode`: a frame of a defined type that was decoded can be encoded again, and decoding that gives the same
  payload, the same stream and the same answer to whether the frame ends the stream. Padding and undefined flags are lost.
-/
import Render.H2.Frame
import Mathlib.Data.Nat.Bitwise

namespace Render.H2

open Render.Core

/-! ## Numbers on the wire -/

@[simp] theorem readU32_toBe (n : ℕ) (rest : Octets) : readU32 (toBe 4 n ++ rest) = UInt32.ofNat n := by
  unfold readU32
  rw [List.take_left' (length_toBe 4 n), ofBe_toBe]
  apply UInt32.toNat_inj.1
  simp

@[simp] theorem readU32_toBe_self (n : ℕ) : readU32 (toBe 4 n) = UInt32.ofNat n := by
  simpa using readU32_toBe n []

theorem StreamId.get_new (raw : UInt32) : (StreamId.new raw).get = raw.toNat % 2 ^ 31 :=
  Nat.and_two_pow_sub_one_eq_mod raw.toNat 31

@[simp] theorem StreamId.new_ofNat_get (id : StreamId) : StreamId.new (UInt32.ofNat id.get) = id := by
  have hlt := id.lt
  ext
  rw [get_new, UInt32.toNat_ofNat', Nat.mod_eq_of_lt (show id.get < 2 ^ 32 by omega), Nat.mod_eq_of_lt hlt]

/-- an error code is canonical when it does not give a number a second spelling -/
def ErrorCode.Canonical : ErrorCode → Prop
  | .unknown value => 0xd < value.toNat
  | _ => True

def SettingId.Canonical : SettingId → Prop
  | .unknown value => value.toNat = 0 ∨ 0x6 < value.toNat
  | _ => True

theorem ErrorCode.fromU32_asU32 {code : ErrorCode} (h : code.Canonical) : fromU32 code.asU32 = code := by
  cases code with
  | unknown value =>
    have hd : 0xd < value.toNat := h
    show fromU32 value = .unknown value
    unfold fromU32
    split <;> first | rfl | omega
  | _ => rfl

theorem ErrorCode.canonical_fromU32 (raw : UInt32) : (fromU32 raw).Canonical := by
  unfold fromU32
  split
  case h_15 hne =>
    show 0xd < raw.toNat
    by_contra hle
    have : raw.toNat < 14 := by omega
    interval_cases raw.toNat <;> simp_all
  all_goals trivial

theorem SettingId.fromU16_asU16 {id : SettingId} (h : id.Canonical) : fromU16 id.asU16 = id := by
  cases id with
  | unknown value =>
    have hd : value.toNat = 0 ∨ 0x6 < value.toNat := h
    show fromU16 value = .unknown value
    unfold fromU16
    split <;> first | rfl | omega
  | _ => rfl

theorem SettingId.canonical_fromU16 (raw : UInt16) : (fromU16 raw).Canonical := by
  unfold fromU16
  split
  case h_7 =>
    show raw.toNat = 0 ∨ 0x6 < raw.toNat
    by_contra hle
    have : raw.toNat < 7 := by omega
    interval_cases raw.toNat <;> simp_all
  all_goals trivial

/-! ## Fields of payloads -/

/-- the high bit over a 31-bit number -/
theorem or_high_bit {n : ℕ} (h : n < 2 ^ 31) (set : Bool) :
    (n ||| if set then 0x80000000 else 0) = n + if set then 2 ^ 31 else 0 := by
  cases set with
  | false => simp
  | true =>
    have hor := Nat.two_pow_add_eq_or_of_lt h 1
    simp only [ite_true]
    rw [Nat.or_comm, show (0x80000000 : ℕ) = 2 ^ 31 * 1 from rfl, ← hor]
    omega

theorem high_bit_iff (raw : UInt32) : (raw &&& 0x80000000 != 0) = decide (2 ^ 31 ≤ raw.toNat) := by
  have hlt := raw.toNat_lt
  have hand : (raw &&& 0x80000000).toNat = 2 ^ 31 * (raw.toNat.testBit 31).toNat := by
    rw [UInt32.toNat_and, Nat.and_comm]
    exact Nat.two_pow_and raw.toNat 31
  have hbit : raw.toNat.testBit 31 = decide (2 ^ 31 ≤ raw.toNat) := by
    rw [Nat.testBit_eq_decide_div_mod_eq]
    apply decide_eq_decide.2
    omega
  rw [hbit] at hand
  by_cases hle : 2 ^ 31 ≤ raw.toNat
  · have hne : raw &&& 0x80000000 ≠ 0 := by
      intro hzero
      rw [hzero, decide_eq_true hle] at hand
      simp at hand
    rw [decide_eq_true hle, bne_iff_ne]
    exact hne
  · have heq : raw &&& 0x80000000 = 0 := by
      apply UInt32.toNat_inj.1
      rw [hand, decide_eq_false hle]
      rfl
    rw [decide_eq_false hle, heq]
    rfl

theorem decodePriority_encode {priority : Priority} {id : StreamId} (h : priority.dependency ≠ id) :
    decodePriority id priority.encode = .ok priority := by
  have hlt := priority.dependency.lt
  have hraw : (readU32 priority.encode).toNat =
      priority.dependency.get + if priority.exclusive then 2 ^ 31 else 0 := by
    rw [Priority.encode, readU32_toBe, or_high_bit hlt, UInt32.toNat_ofNat']
    cases priority.exclusive <;> simp <;> omega
  have hdep : StreamId.new (readU32 priority.encode) = priority.dependency := by
    ext
    rw [StreamId.get_new, hraw]
    cases priority.exclusive <;> simp <;> omega
  have hexclusive : (readU32 priority.encode &&& 0x80000000 != 0) = priority.exclusive := by
    rw [high_bit_iff, hraw]
    cases priority.exclusive
    · simpa using hlt
    · simp
  have hweight : priority.encode.getD 4 0 = priority.weight := by
    simp [Priority.encode, List.getD_eq_getElem?_getD]
  unfold decodePriority
  simp only [hdep, hexclusive, hweight]
  simp [refuse, h, bind, Except.bind, pure, Except.pure]

@[simp] theorem length_encodePriority (priority : Priority) : priority.encode.length = 5 := by
  simp [Priority.encode]

@[simp] theorem length_encodeSetting (setting : Setting) : (encodeSetting setting).length = 6 := by
  simp [encodeSetting]

theorem encodeSettings_cons {setting : Setting} {rest : List Setting} {payload : Octets} :
    encodeSettings (setting :: rest) = .ok payload ↔ validateSetting setting.id setting.value = .ok () ∧
      ∃ tail, encodeSettings rest = .ok tail ∧ payload = encodeSetting setting ++ tail := by
  rw [encodeSettings]
  simp only [bind_eq_ok, pure_eq_ok]
  constructor
  · intro h
    obtain ⟨_, hv, tail, ht, rfl⟩ := h
    exact ⟨hv, tail, ht, rfl⟩
  · intro h
    obtain ⟨hv, tail, ht, rfl⟩ := h
    exact ⟨(), hv, tail, ht, rfl⟩

theorem length_encodeSettings {settings : List Setting} {payload : Octets} (h : encodeSettings settings = .ok payload) :
    payload.length = settings.length * 6 := by
  induction settings generalizing payload with
  | nil => cases h; rfl
  | cons setting rest ih =>
    obtain ⟨_, tail, ht, rfl⟩ := encodeSettings_cons.1 h
    rw [List.length_append, length_encodeSetting, ih ht, List.length_cons]
    ring

/-- what the loop over settings writes, the loop over chunks reads back -/
theorem decodeSettings_encodeSettings {settings : List Setting} {payload : Octets}
    (hc : ∀ setting ∈ settings, setting.id.Canonical) (h : encodeSettings settings = .ok payload) :
    decodeSettings payload = .ok settings := by
  induction settings generalizing payload with
  | nil => cases h; rfl
  | cons setting rest ih =>
    obtain ⟨hv, tail, ht, rfl⟩ := encodeSettings_cons.1 h
    have htail := ih (fun s hs => hc s (List.mem_cons_of_mem _ hs)) ht
    obtain ⟨a, b, hid⟩ := List.length_eq_two.1 (length_toBe 2 setting.id.asU16.toNat)
    obtain ⟨c, d, e, f, hvalue⟩ : ∃ c d e f, toBe 4 setting.value.toNat = [c, d, e, f] := ⟨_, _, _, _, rfl⟩
    have hid' : SettingId.fromU16 (UInt16.ofNat (ofBe [a, b])) = setting.id := by
      rw [← hid, ofBe_toBe_of_lt setting.id.asU16.toNat_lt, UInt16.ofNat_toNat]
      exact SettingId.fromU16_asU16 (hc setting List.mem_cons_self)
    have hvalue' : readU32 [c, d, e, f] = setting.value := by
      rw [← hvalue, readU32_toBe_self, UInt32.ofNat_toNat]
    rw [encodeSetting, hid, hvalue]
    simp only [List.cons_append, List.nil_append, decodeSettings, hid', hvalue', hv, htail]
    rfl

@[simp] theorem pingPayload_toList (payload : Vector UInt8 8) : pingPayload payload.toList = payload := by
  apply Vector.ext
  intro i hi
  simp [pingPayload, List.getD_eq_getElem?_getD]

theorem validateConnection_ok {id : StreamId} {frameType : FrameType} {u : Unit} :
    validateConnection id frameType = .ok u ↔ id = .connection := by
  rw [validateConnection, refuse_eq_ok, Bool.not_eq_true', Bool.not_eq_false, StreamId.isConnection, beq_iff_eq]
  show id.get = StreamId.connection.get ↔ _
  exact StreamId.ext_iff.symm

/-- a 31-bit number has no high bit to mask -/
theorem and_mask {n : UInt32} (h : n.toNat ≤ 0x7fffffff) : n &&& 0x7fffffff = n := by
  apply UInt32.toNat_inj.1
  rw [UInt32.toNat_and]
  exact Nat.and_two_pow_sub_one_of_lt_two_pow (show n.toNat < 2 ^ 31 by omega)

/-! ## Flags -/

theorem hasFlag_endStream (endStream endHeaders priority : Bool) :
    hasFlag (flagIf endStream flagEndStream ||| flagIf endHeaders flagEndHeaders ||| flagIf priority flagPriority)
      flagEndStream = endStream := by
  cases endStream <;> cases endHeaders <;> cases priority <;> rfl

theorem hasFlag_endHeaders (endStream endHeaders priority : Bool) :
    hasFlag (flagIf endStream flagEndStream ||| flagIf endHeaders flagEndHeaders ||| flagIf priority flagPriority)
      flagEndHeaders = endHeaders := by
  cases endStream <;> cases endHeaders <;> cases priority <;> rfl

theorem hasFlag_priority (endStream endHeaders priority : Bool) :
    hasFlag (flagIf endStream flagEndStream ||| flagIf endHeaders flagEndHeaders ||| flagIf priority flagPriority)
      flagPriority = priority := by
  cases endStream <;> cases endHeaders <;> cases priority <;> rfl

theorem hasFlag_padded (endStream endHeaders priority : Bool) :
    hasFlag (flagIf endStream flagEndStream ||| flagIf endHeaders flagEndHeaders ||| flagIf priority flagPriority)
      flagPadded = false := by
  cases endStream <;> cases endHeaders <;> cases priority <;> rfl

@[simp] theorem hasFlag_flagIf (set : Bool) : hasFlag (flagIf set flagEndStream) flagEndStream = set ∧
    hasFlag (flagIf set flagEndStream) flagPadded = false ∧ hasFlag (flagIf set flagAck) flagAck = set ∧
    hasFlag (flagIf set flagEndHeaders) flagEndHeaders = set ∧ hasFlag (flagIf set flagEndHeaders) flagPadded = false := by
  cases set <;> decide

/-- nothing is stripped where the padding flag is not set -/
theorem stripPadding_of_not_padded {flags : UInt8} (h : hasFlag flags flagPadded = false) (payload : Octets) :
    stripPadding flags payload = .ok payload := by
  simp [stripPadding, h]

/-! ## One frame, payload by payload -/

/-- a payload whose error code and setting ids are spelled the canonical way -/
def FrameKind.Canonical : FrameKind → Prop
  | .rstStream code => code.Canonical
  | .goAway _ code _ => code.Canonical
  | .settings _ list => ∀ setting ∈ list, setting.id.Canonical
  | _ => True

/-- a payload of a frame type the source defines -/
def FrameKind.Defined : FrameKind → Prop
  | .unknown _ _ => False
  | _ => True

/-- reading the parts back gives the payload the frame had -/
structure ReadsBack (frame : Frame) (parts : FrameType × UInt8 × StreamId × Octets) : Prop where
  kind : decodeKind parts.2.2.2.length parts.1 parts.2.1 parts.2.2.1 parts.2.2.2 = .ok frame.kind
  frameType : FrameType.fromU8 parts.1.asU8 = parts.1
  streamId : parts.2.2.1 = frame.header.streamId

theorem decodeKind_encodeParts {frame : Frame} {parts : FrameType × UInt8 × StreamId × Octets}
    (hd : frame.kind.Defined) (hc : frame.kind.Canonical) (h : frame.encodeParts = .ok parts) :
    ReadsBack frame parts := by
  obtain ⟨header, kind⟩ := frame
  unfold Frame.encodeParts at h
  cases kind with
  | data data =>
    simp only [bind_eq_ok, pure_eq_ok] at h
    obtain ⟨_, hid, rfl⟩ := h
    refine ⟨?_, rfl, rfl⟩
    simp [decodeKind, hid, stripPadding_of_not_padded, bind, Except.bind, pure, Except.pure]
  | headers endStream endHeaders priority fragment =>
    simp only [bind_eq_ok] at h
    obtain ⟨_, hid, h⟩ := h
    cases priority with
    | none =>
      simp only [pure_eq_ok] at h
      subst h
      refine ⟨?_, rfl, rfl⟩
      have hflags := Eq.symm (UInt8.or_zero (a := flagIf endStream flagEndStream ||| flagIf endHeaders flagEndHeaders))
      rw [show (0 : UInt8) = flagIf false flagPriority from rfl] at hflags
      simp only [decodeKind, hid, bind, Except.bind, pure, Except.pure]
      rw [hflags, stripPadding_of_not_padded (hasFlag_padded ..), hasFlag_endStream, hasFlag_endHeaders]
      simp [parsePriority, hasFlag_priority]
    | some priority =>
      simp only [bind_eq_ok, pure_eq_ok, refuse_eq_ok] at h
      obtain ⟨_, hne, rfl⟩ := h
      refine ⟨?_, rfl, rfl⟩
      simp only [decodeKind, hid, bind, Except.bind, pure, Except.pure]
      rw [show flagPriority = flagIf true flagPriority from rfl, stripPadding_of_not_padded (hasFlag_padded ..),
        hasFlag_endStream, hasFlag_endHeaders]
      have hlength := length_encodePriority priority
      simp [parsePriority, hasFlag_priority, refuse, List.take_left' hlength, List.drop_left' hlength,
        decodePriority_encode hne, bind, Except.bind, pure, Except.pure]
  | priority priority =>
    simp only [bind_eq_ok, pure_eq_ok, refuse_eq_ok] at h
    obtain ⟨_, hid, _, hne, rfl⟩ := h
    refine ⟨?_, rfl, rfl⟩
    simp [decodeKind, hid, requireLength, refuse, decodePriority_encode hne, bind, Except.bind, pure, Except.pure]
  | rstStream code =>
    simp only [bind_eq_ok, pure_eq_ok] at h
    obtain ⟨_, hid, rfl⟩ := h
    refine ⟨?_, rfl, rfl⟩
    simp [decodeKind, hid, requireLength, refuse, ErrorCode.fromU32_asU32 hc, bind, Except.bind, pure, Except.pure]
  | settings ack settings =>
    simp only [bind_eq_ok, pure_eq_ok, refuse_eq_ok] at h
    obtain ⟨_, hid, payload, hpayload, _, hack, rfl⟩ := h
    refine ⟨?_, rfl, (validateConnection_ok.1 hid).symm⟩
    rw [validateConnection_ok.1 hid] at hid
    have hlength := length_encodeSettings hpayload
    cases ack with
    | true =>
      have hnil : payload = [] := by simpa using hack
      subst hnil
      have hsettings : settings = [] := List.eq_nil_of_length_eq_zero (by simpa using hlength)
      simp [decodeKind, hid, refuse, hsettings, bind, Except.bind, pure, Except.pure]
    | false =>
      simp [decodeKind, hid, refuse, hlength, decodeSettings_encodeSettings hc hpayload, bind, Except.bind, pure,
        Except.pure]
  | pushPromise endHeaders promised fragment =>
    simp only [bind_eq_ok, pure_eq_ok, refuse_eq_ok] at h
    obtain ⟨_, hid, _, hpromised, rfl⟩ := h
    refine ⟨?_, rfl, rfl⟩
    simp [decodeKind, hid, stripPadding_of_not_padded, refuse, hpromised, List.drop_left' (length_toBe 4 _), bind,
      Except.bind, pure, Except.pure]
  | ping ack payload =>
    simp only [bind_eq_ok, pure_eq_ok] at h
    obtain ⟨_, hid, rfl⟩ := h
    refine ⟨?_, rfl, (validateConnection_ok.1 hid).symm⟩
    rw [validateConnection_ok.1 hid] at hid
    simp [decodeKind, hid, requireLength, refuse, bind, Except.bind, pure, Except.pure]
  | goAway last code debug =>
    simp only [bind_eq_ok, pure_eq_ok] at h
    obtain ⟨_, hid, rfl⟩ := h
    refine ⟨?_, rfl, (validateConnection_ok.1 hid).symm⟩
    rw [validateConnection_ok.1 hid] at hid
    have hcode : code.Canonical := hc
    have hdrop : (toBe 4 last.get ++ (toBe 4 code.asU32.toNat ++ debug)).drop 8 = debug := by
      rw [← List.append_assoc]
      exact List.drop_left' (by simp)
    have hlong : ¬ 4 + (4 + debug.length) < 8 := by omega
    simp [decodeKind, hid, refuse, ErrorCode.fromU32_asU32 hcode, List.append_assoc, hdrop, hlong, bind, Except.bind,
      pure, Except.pure]
  | windowUpdate increment =>
    simp only [bind_eq_ok, pure_eq_ok, refuse_eq_ok] at h
    obtain ⟨_, hrange, rfl⟩ := h
    refine ⟨?_, rfl, rfl⟩
    rw [not_or] at hrange
    have hmask := and_mask (Nat.not_lt.1 hrange.2)
    have hpositive : increment ≠ 0 := fun hzero => hrange.1 (by rw [hzero]; rfl)
    simp [decodeKind, requireLength, refuse, hmask, hpositive, bind, Except.bind, pure, Except.pure]
  | continuation endHeaders fragment =>
    simp only [bind_eq_ok, pure_eq_ok] at h
    obtain ⟨_, hid, rfl⟩ := h
    refine ⟨?_, rfl, rfl⟩
    simp [decodeKind, hid, bind, Except.bind, pure, Except.pure]
  | unknown frameType payload => exact hd.elim

/-! ## One frame on the wire -/

/-- the octets of an assembled frame are its header's nine, then the payload -/
theorem assemble_eq (frameType : FrameType) (flags : UInt8) (id : StreamId) (payload : Octets) :
    ∃ a b c, toBe 3 payload.length = [a, b, c] ∧
      assemble frameType flags id payload = a :: b :: c :: frameType.asU8 :: flags :: (toBe 4 id.get ++ payload) := by
  obtain ⟨a, b, c, h⟩ := List.length_eq_three.1 (length_toBe 3 payload.length)
  exact ⟨a, b, c, h, by simp [assemble, h]⟩

theorem decode_assemble {frameType : FrameType} {flags : UInt8} {id : StreamId} {payload : Octets} {maxFrameSize : ℕ}
    (hlength : payload.length ≤ maxMaxFrameSize) (hmax : payload.length ≤ maxFrameSize) :
    Frame.decode (assemble frameType flags id payload) maxFrameSize =
      decodeFrame payload.length (FrameType.fromU8 frameType.asU8) flags id payload := by
  obtain ⟨a, b, c, hbe, heq⟩ := assemble_eq frameType flags id payload
  have hdeclared : declaredLength (assemble frameType flags id payload) = payload.length := by
    have h24 : maxMaxFrameSize < 256 ^ 3 := by decide
    rw [heq, declaredLength]
    show ofBe [a, b, c] = payload.length
    rw [← hbe, ofBe_toBe_of_lt (by omega)]
  have htotal : (assemble frameType flags id payload).length = 9 + payload.length := by
    simp [heq]
    omega
  have hpayload : (assemble frameType flags id payload).drop 9 = payload := by
    rw [heq]
    exact List.drop_left' (length_toBe 4 id.get)
  have hid : StreamId.new (readU32 ((assemble frameType flags id payload).drop 5)) = id := by
    rw [heq]
    simp
  have htype : (assemble frameType flags id payload).getD 3 0 = frameType.asU8 := by rw [heq]; rfl
  have hflags : (assemble frameType flags id payload).getD 4 0 = flags := by rw [heq]; rfl
  unfold Frame.decode
  simp only [hdeclared, hpayload, hid, htype, hflags, htotal]
  simp [refuse, Nat.not_lt.2 hmax, bind, Except.bind]

theorem encode_eq_ok {frame : Frame} {octets : Octets} :
    frame.encode = .ok octets ↔ ∃ parts, frame.encodeParts = .ok parts ∧ parts.2.2.2.length ≤ maxMaxFrameSize ∧
      octets = assemble parts.1 parts.2.1 parts.2.2.1 parts.2.2.2 := by
  have h24 : maxMaxFrameSize ≤ u32Max := by decide
  unfold Frame.encode
  simp only [bind_eq_ok, pure_eq_ok, refuse_eq_ok]
  constructor
  · intro h
    obtain ⟨parts, hparts, _, _, _, hle, rfl⟩ := h
    exact ⟨parts, hparts, Nat.not_lt.1 hle, rfl⟩
  · intro h
    obtain ⟨parts, hparts, hle, rfl⟩ := h
    exact ⟨parts, hparts, (), Nat.not_lt.2 (hle.trans h24), (), Nat.not_lt.2 hle, rfl⟩

theorem length_assemble (frameType : FrameType) (flags : UInt8) (id : StreamId) (payload : Octets) :
    (assemble frameType flags id payload).length = 9 + payload.length := by
  simp [assemble]
  omega

/-- **What was encoded is read back**: the payload of the frame, under a header that says what `encode_parts` said. -/
theorem decode_encodeParts {frame : Frame} {parts : FrameType × UInt8 × StreamId × Octets} {maxFrameSize : ℕ}
    (hd : frame.kind.Defined) (hc : frame.kind.Canonical) (h : frame.encodeParts = .ok parts)
    (hlength : parts.2.2.2.length ≤ maxMaxFrameSize) (hmax : parts.2.2.2.length ≤ maxFrameSize) :
    Frame.decode (assemble parts.1 parts.2.1 parts.2.2.1 parts.2.2.2) maxFrameSize =
      .ok ⟨⟨parts.2.2.2.length, parts.1, parts.2.1, frame.header.streamId⟩, frame.kind⟩ := by
  have hback := decodeKind_encodeParts hd hc h
  rw [decode_assemble hlength hmax, hback.frameType, decodeFrame, hback.kind, hback.streamId]
  rfl

/-! ## Frames of the constructors -/

/-- the frames the public constructors make -/
inductive Built : Frame → Prop
  | data (id : StreamId) (endStream : Bool) (data : Octets) : Built (.data id endStream data)
  | headers (id : StreamId) (endStream endHeaders : Bool) (priority : Option Priority) (fragment : Octets) :
      Built (.headers id endStream endHeaders priority fragment)
  | priority (id : StreamId) (priority : Priority) : Built (.priority id priority)
  | rstStream (id : StreamId) (code : ErrorCode) : Built (.rstStream id code)
  | settings (settings : List Setting) : Built (.settings settings)
  | settingsAck : Built .settingsAck
  | pushPromise (id promised : StreamId) (endHeaders : Bool) (fragment : Octets) :
      Built (.pushPromise id promised endHeaders fragment)
  | ping (ack : Bool) (payload : Vector UInt8 8) : Built (.ping ack payload)
  | goaway (last : StreamId) (code : ErrorCode) (debug : Octets) : Built (.goaway last code debug)
  | windowUpdate (id : StreamId) (increment : UInt32) : Built (.windowUpdate id increment)
  | continuation (id : StreamId) (endHeaders : Bool) (fragment : Octets) :
      Built (.continuation id endHeaders fragment)

theorem Built.defined {frame : Frame} (h : Built frame) : frame.kind.Defined := by
  cases h <;> trivial

theorem toU32_of_le {n : ℕ} (h : n ≤ maxMaxFrameSize) : toU32 n = n :=
  if_pos (h.trans (by decide))

/-- the header a constructor writes is the one `encode_parts` writes -/
theorem Built.header {frame : Frame} (h : Built frame) {parts : FrameType × UInt8 × StreamId × Octets}
    (hparts : frame.encodeParts = .ok parts) (hlength : parts.2.2.2.length ≤ maxMaxFrameSize) :
    frame.header = ⟨parts.2.2.2.length, parts.1, parts.2.1, frame.header.streamId⟩ := by
  unfold Frame.encodeParts at hparts
  cases h with
  | data id endStream data =>
    simp only [Frame.data, bind_eq_ok, pure_eq_ok] at hparts
    obtain ⟨_, _, rfl⟩ := hparts
    simp [Frame.data, FrameHeader.endStream, toU32_of_le hlength]
  | headers id endStream endHeaders priority fragment =>
    simp only [Frame.headers, bind_eq_ok] at hparts
    obtain ⟨_, _, hparts⟩ := hparts
    cases priority with
    | none =>
      simp only [pure_eq_ok] at hparts
      subst hparts
      simp [Frame.headers, flagIf, toU32_of_le hlength]
    | some priority =>
      simp only [bind_eq_ok, pure_eq_ok] at hparts
      obtain ⟨_, _, rfl⟩ := hparts
      simp only [List.length_append, length_encodePriority] at hlength
      simp [Frame.headers, flagIf, Nat.add_comm fragment.length 5, toU32_of_le hlength]
  | priority id priority =>
    simp only [Frame.priority, bind_eq_ok, pure_eq_ok] at hparts
    obtain ⟨_, _, _, _, rfl⟩ := hparts
    simp [Frame.priority]
  | rstStream id code =>
    simp only [Frame.rstStream, bind_eq_ok, pure_eq_ok] at hparts
    obtain ⟨_, _, rfl⟩ := hparts
    simp [Frame.rstStream]
  | settings settings =>
    simp only [Frame.settings, bind_eq_ok, pure_eq_ok] at hparts
    obtain ⟨_, _, payload, hpayload, _, _, rfl⟩ := hparts
    have hcount := length_encodeSettings hpayload
    simp [Frame.settings, flagIf, ← hcount, toU32_of_le hlength]
  | settingsAck =>
    simp only [Frame.settingsAck, bind_eq_ok, pure_eq_ok] at hparts
    obtain ⟨_, _, payload, hpayload, _, _, rfl⟩ := hparts
    have hcount := length_encodeSettings hpayload
    simp [Frame.settingsAck, flagIf, hcount]
  | pushPromise id promised endHeaders fragment =>
    simp only [Frame.pushPromise, bind_eq_ok, pure_eq_ok] at hparts
    obtain ⟨_, _, _, _, rfl⟩ := hparts
    simp only [List.length_append, length_toBe] at hlength
    simp [Frame.pushPromise, toU32_of_le hlength]
  | ping ack payload =>
    simp only [Frame.ping, bind_eq_ok, pure_eq_ok] at hparts
    obtain ⟨_, _, rfl⟩ := hparts
    simp [Frame.ping]
  | goaway last code debug =>
    simp only [Frame.goaway, bind_eq_ok, pure_eq_ok] at hparts
    obtain ⟨_, _, rfl⟩ := hparts
    have hcount : (toBe 4 last.get ++ toBe 4 code.asU32.toNat ++ debug).length = 8 + debug.length := by
      simp
      omega
    rw [hcount] at hlength
    simp [Frame.goaway, toU32_of_le hlength]
    omega
  | windowUpdate id increment =>
    simp only [Frame.windowUpdate, bind_eq_ok, pure_eq_ok] at hparts
    obtain ⟨_, _, rfl⟩ := hparts
    simp [Frame.windowUpdate]
  | continuation id endHeaders fragment =>
    simp only [Frame.continuation, bind_eq_ok, pure_eq_ok] at hparts
    obtain ⟨_, _, rfl⟩ := hparts
    simp [Frame.continuation, toU32_of_le hlength]

/-- **Encoding then decoding a frame gives the frame.** A frame of the constructors whose error codes and setting ids are
canonical decodes to itself, header length and flags included, whenever it encodes and the receiver takes its size. -/
theorem decode_encode {frame : Frame} (hbuilt : Built frame) (hc : frame.kind.Canonical) {octets : Octets}
    {maxFrameSize : ℕ} (h : frame.encode = .ok octets) (hmax : octets.length ≤ 9 + maxFrameSize) :
    Frame.decode octets maxFrameSize = .ok frame := by
  obtain ⟨parts, hparts, hlength, rfl⟩ := encode_eq_ok.1 h
  rw [length_assemble] at hmax
  rw [decode_encodeParts hbuilt.defined hc hparts hlength (by omega), ← hbuilt.header hparts hlength]

/-! ## Frames off the wire -/

theorem ofBe_take_le (octets : Octets) : declaredLength octets ≤ maxMaxFrameSize := by
  have hlt := ofBe_lt (octets.take 3)
  have hpow : 256 ^ (octets.take 3).length ≤ 256 ^ 3 := Nat.pow_le_pow_right (by omega) (by simp)
  have h24 : 256 ^ 3 = maxMaxFrameSize + 1 := by decide
  unfold declaredLength
  omega

/-- what `decode` has checked of an accepted frame -/
structure Accepted (frame : Frame) (payload : Octets) (maxFrameSize : ℕ) : Prop where
  length : frame.header.length = payload.length
  fits : payload.length ≤ maxFrameSize
  fits24 : payload.length ≤ maxMaxFrameSize
  kind : decodeKind payload.length frame.header.frameType frame.header.flags frame.header.streamId payload = .ok frame.kind

theorem accepted_of_decode {octets : Octets} {maxFrameSize : ℕ} {frame : Frame}
    (h : Frame.decode octets maxFrameSize = .ok frame) : Accepted frame (octets.drop 9) maxFrameSize := by
  unfold Frame.decode decodeFrame at h
  simp only [bind_eq_ok, pure_eq_ok, refuse_eq_ok] at h
  obtain ⟨_, hnine, _, htotal, _, hmax, kind, hkind, rfl⟩ := h
  have hlength : (octets.drop 9).length = declaredLength octets := by
    rw [List.length_drop]
    omega
  have h24 := ofBe_take_le octets
  rw [← hlength] at hkind hmax h24
  exact ⟨hlength.symm, Nat.not_lt.1 hmax, h24, hkind⟩

/-- the frame type that a payload belongs to -/
def FrameKind.wireType : FrameKind → FrameType
  | .data _ => .data
  | .headers .. => .headers
  | .priority _ => .priority
  | .rstStream _ => .rstStream
  | .settings .. => .settings
  | .pushPromise .. => .pushPromise
  | .ping .. => .ping
  | .goAway .. => .goAway
  | .windowUpdate _ => .windowUpdate
  | .continuation .. => .continuation
  | .unknown value _ => .unknown value

/-- the frames of the connection itself -/
def FrameType.OfConnection (frameType : FrameType) : Prop :=
  frameType = .settings ∨ frameType = .ping ∨ frameType = .goAway

/-- the frames of a stream -/
def FrameType.OfStream (frameType : FrameType) : Prop :=
  frameType = .data ∨ frameType = .headers ∨ frameType = .priority ∨ frameType = .rstStream ∨ frameType = .pushPromise ∨
    frameType = .continuation

/-- a payload belongs to the type it was decoded for, and to a stream as that type asks -/
theorem type_of_decodeKind {length : ℕ} {frameType : FrameType} {flags : UInt8} {streamId : StreamId} {payload : Octets}
    {kind : FrameKind} (h : decodeKind length frameType flags streamId payload = .ok kind) :
    frameType = kind.wireType ∧ (frameType.OfConnection → streamId.isConnection = true) ∧
      (frameType.OfStream → streamId.isConnection = false) := by
  have hconnection : validateConnection streamId frameType = .ok () → streamId.isConnection = true := by
    intro hok
    simpa [validateConnection, refuse_eq_ok] using hok
  have hstream : validateStream streamId frameType = .ok () → streamId.isConnection = false := by
    intro hok
    simpa [validateStream, refuse_eq_ok] using hok
  rw [decodeKind.eq_def] at h
  split at h
  all_goals try simp only [bind_eq_ok, pure_eq_ok] at h
  · obtain ⟨_, hok, _, -, rfl⟩ := h
    exact ⟨rfl, by simp [FrameType.OfConnection], fun _ => hstream hok⟩
  · obtain ⟨_, hok, _, -, ⟨_, _⟩, -, rfl⟩ := h
    exact ⟨rfl, by simp [FrameType.OfConnection], fun _ => hstream hok⟩
  · obtain ⟨_, hok, _, -, _, -, rfl⟩ := h
    exact ⟨rfl, by simp [FrameType.OfConnection], fun _ => hstream hok⟩
  · obtain ⟨_, hok, _, -, rfl⟩ := h
    exact ⟨rfl, by simp [FrameType.OfConnection], fun _ => hstream hok⟩
  · obtain ⟨_, hok, hsettings⟩ := h
    refine ⟨?_, fun _ => hconnection hok, by simp [FrameType.OfStream]⟩
    split_ifs at hsettings
    · simp only [bind_eq_ok, pure_eq_ok] at hsettings
      obtain ⟨_, -, rfl⟩ := hsettings
      rfl
    · simp only [bind_eq_ok, pure_eq_ok] at hsettings
      obtain ⟨_, -, _, -, rfl⟩ := hsettings
      rfl
  · obtain ⟨_, hok, _, -, _, -, _, -, rfl⟩ := h
    exact ⟨rfl, by simp [FrameType.OfConnection], fun _ => hstream hok⟩
  · obtain ⟨_, hok, _, -, rfl⟩ := h
    exact ⟨rfl, fun _ => hconnection hok, by simp [FrameType.OfStream]⟩
  · obtain ⟨_, hok, _, -, rfl⟩ := h
    exact ⟨rfl, fun _ => hconnection hok, by simp [FrameType.OfStream]⟩
  · obtain ⟨_, -, _, -, rfl⟩ := h
    exact ⟨rfl, by simp [FrameType.OfConnection], by simp [FrameType.OfStream]⟩
  · obtain ⟨_, hok, rfl⟩ := h
    exact ⟨rfl, by simp [FrameType.OfConnection], fun _ => hstream hok⟩
  · cases h
    exact ⟨rfl, by simp [FrameType.OfConnection], by simp [FrameType.OfStream]⟩

/-- does a payload under these flags end its stream: only `DATA` and `HEADERS` can -/
def FrameKind.endsStream (kind : FrameKind) (flags : UInt8) : Bool :=
  match kind with
  | .data _ => hasFlag flags flagEndStream
  | .headers .. => hasFlag flags flagEndStream
  | _ => false

def Frame.endsStream (frame : Frame) : Bool := frame.kind.endsStream frame.header.flags

/-- the parts that are written for a frame off the wire -/
structure Rewrites (frame : Frame) (payload : Octets) (parts : FrameType × UInt8 × StreamId × Octets) : Prop where
  encoded : frame.encodeParts = .ok parts
  length : parts.2.2.2.length ≤ payload.length
  endsStream : frame.kind.endsStream parts.2.1 = frame.endsStream

theorem stripPadding_length {flags : UInt8} {payload body : Octets} (h : stripPadding flags payload = .ok body) :
    body.length ≤ payload.length := by
  unfold stripPadding at h
  split_ifs at h with hpadded
  · cases payload with
    | nil => cases h
    | cons paddingLength rest =>
      simp only at h
      split_ifs at h with hlong
      obtain rfl := Except.ok.inj h
      simp
      omega
  · obtain rfl := Except.ok.inj h
    exact le_rfl

theorem decodePriority_ne {id : StreamId} {octets : Octets} {priority : Priority} {frameType : FrameType} {u : Unit}
    (hid : validateStream id frameType = .ok u) (h : decodePriority id octets = .ok priority) :
    priority.dependency ≠ id := by
  unfold decodePriority at h
  simp only [bind_eq_ok, pure_eq_ok, refuse_eq_ok] at h
  obtain ⟨_, hne, rfl⟩ := h
  intro heq
  exact hne ⟨heq, refuse_eq_ok.1 hid⟩

theorem decodeSettings_ok {payload : Octets} {settings : List Setting} (h : decodeSettings payload = .ok settings) :
    (∀ setting ∈ settings, setting.id.Canonical) ∧ ∃ written, encodeSettings settings = .ok written ∧
      written.length ≤ payload.length := by
  induction payload using decodeSettings.induct generalizing settings with
  | case1 a b c d e f rest ih =>
    simp only [decodeSettings, bind_eq_ok, pure_eq_ok] at h
    obtain ⟨_, hv, tail, htail, rfl⟩ := h
    obtain ⟨hcanonical, written, hwritten, hle⟩ := ih htail
    refine ⟨?_, _, encodeSettings_cons.2 ⟨hv, written, hwritten, rfl⟩, ?_⟩
    · intro setting hs
      rcases List.mem_cons.1 hs with rfl | hs
      · exact SettingId.canonical_fromU16 _
      · exact hcanonical setting hs
    · simp
      omega
  | case2 payload hshort =>
    rw [decodeSettings] at h
    · obtain rfl := Except.ok.inj h
      exact ⟨by simp, [], rfl, Nat.zero_le _⟩
    · exact hshort

theorem rewrites_of_accepted {frame : Frame} {payload : Octets} {maxFrameSize : ℕ}
    (h : Accepted frame payload maxFrameSize) (hd : frame.kind.Defined) :
    frame.kind.Canonical ∧ ∃ parts, Rewrites frame payload parts := by
  obtain ⟨⟨length, frameType, flags, id⟩, kind⟩ := frame
  have hkind := h.kind
  simp only [decodeKind] at hkind
  cases frameType with
  | data =>
    simp only [bind_eq_ok, pure_eq_ok] at hkind
    obtain ⟨_, hid, body, hbody, rfl⟩ := hkind
    refine ⟨trivial, (.data, flagIf (hasFlag flags flagEndStream) flagEndStream, id, body), ?_, ?_, ?_⟩
    · simp [Frame.encodeParts, FrameHeader.endStream, hid, bind, Except.bind, pure, Except.pure]
    · exact stripPadding_length hbody
    · simp [FrameKind.endsStream, Frame.endsStream]
  | headers =>
    simp only [bind_eq_ok, pure_eq_ok] at hkind
    obtain ⟨_, hid, body, hbody, ⟨priority, fragment⟩, hpriority, rfl⟩ := hkind
    have hbodyLength := stripPadding_length hbody
    refine ⟨trivial, ?_⟩
    unfold parsePriority at hpriority
    split_ifs at hpriority with hflag
    · simp only [bind_eq_ok, pure_eq_ok, refuse_eq_ok] at hpriority
      obtain ⟨_, hfive, priority, hp, hpair⟩ := hpriority
      obtain ⟨rfl, rfl⟩ := Prod.mk.inj hpair
      refine ⟨(.headers, flagIf (hasFlag flags flagEndStream) flagEndStream |||
        flagIf (hasFlag flags flagEndHeaders) flagEndHeaders ||| flagPriority, id, priority.encode ++ body.drop 5),
        ?_, ?_, ?_⟩
      · simp [Frame.encodeParts, hid, refuse, decodePriority_ne hid hp, bind, Except.bind, pure, Except.pure]
      · simp
        omega
      · exact hasFlag_endStream _ _ true
    · obtain ⟨rfl, rfl⟩ := Prod.mk.inj (Except.ok.inj hpriority)
      refine ⟨(.headers, flagIf (hasFlag flags flagEndStream) flagEndStream |||
        flagIf (hasFlag flags flagEndHeaders) flagEndHeaders, id, body), ?_, hbodyLength, ?_⟩
      · simp [Frame.encodeParts, hid, bind, Except.bind, pure, Except.pure]
      · have hend := hasFlag_endStream (hasFlag flags flagEndStream) (hasFlag flags flagEndHeaders) false
        simpa [flagIf, FrameKind.endsStream, Frame.endsStream] using hend
  | priority =>
    simp only [bind_eq_ok, pure_eq_ok, requireLength, refuse_eq_ok] at hkind
    obtain ⟨_, hid, _, hfive, priority, hp, rfl⟩ := hkind
    refine ⟨trivial, (.priority, 0, id, priority.encode), ?_, ?_, rfl⟩
    · simp [Frame.encodeParts, hid, refuse, decodePriority_ne hid hp, bind, Except.bind, pure, Except.pure]
    · simp
      omega
  | rstStream =>
    simp only [bind_eq_ok, pure_eq_ok, requireLength, refuse_eq_ok] at hkind
    obtain ⟨_, hid, _, hfour, rfl⟩ := hkind
    refine ⟨ErrorCode.canonical_fromU32 _,
      (.rstStream, 0, id, toBe 4 (ErrorCode.fromU32 (readU32 payload)).asU32.toNat), ?_, ?_, rfl⟩
    · simp [Frame.encodeParts, hid, bind, Except.bind, pure, Except.pure]
    · simp
      omega
  | settings =>
    simp only [bind_eq_ok] at hkind
    obtain ⟨_, hid, hkind⟩ := hkind
    split_ifs at hkind with hack
    · simp only [bind_eq_ok, pure_eq_ok] at hkind
      obtain ⟨_, _, rfl⟩ := hkind
      refine ⟨by simp [FrameKind.Canonical], (.settings, flagAck, .connection, []), ?_, Nat.zero_le _, rfl⟩
      simp [Frame.encodeParts, hid, encodeSettings, refuse, flagIf, bind, Except.bind, pure, Except.pure]
    · simp only [bind_eq_ok, pure_eq_ok] at hkind
      obtain ⟨_, _, settings, hsettings, rfl⟩ := hkind
      obtain ⟨hcanonical, written, hwritten, hle⟩ := decodeSettings_ok hsettings
      refine ⟨hcanonical, (.settings, 0, .connection, written), ?_, hle, rfl⟩
      simp [Frame.encodeParts, hid, hwritten, refuse, flagIf, bind, Except.bind, pure, Except.pure]
  | pushPromise =>
    simp only [bind_eq_ok, pure_eq_ok, refuse_eq_ok] at hkind
    obtain ⟨_, hid, body, hbody, _, hfour, _, hpromised, rfl⟩ := hkind
    have hbodyLength := stripPadding_length hbody
    refine ⟨trivial, (.pushPromise, flagIf (hasFlag flags flagEndHeaders) flagEndHeaders, id,
      toBe 4 (StreamId.new (readU32 body)).get ++ body.drop 4), ?_, ?_, rfl⟩
    · simp [Frame.encodeParts, hid, refuse, hpromised, bind, Except.bind, pure, Except.pure]
    · simp
      omega
  | ping =>
    simp only [bind_eq_ok, pure_eq_ok, requireLength, refuse_eq_ok] at hkind
    obtain ⟨_, hid, _, height, rfl⟩ := hkind
    refine ⟨trivial, (.ping, flagIf (hasFlag flags flagAck) flagAck, .connection, (pingPayload payload).toList),
      ?_, ?_, rfl⟩
    · simp [Frame.encodeParts, hid, bind, Except.bind, pure, Except.pure]
    · simp
      omega
  | goAway =>
    simp only [bind_eq_ok, pure_eq_ok, refuse_eq_ok] at hkind
    obtain ⟨_, hid, _, height, rfl⟩ := hkind
    refine ⟨ErrorCode.canonical_fromU32 _, (.goAway, 0, .connection, toBe 4 (StreamId.new (readU32 payload)).get ++
      toBe 4 (ErrorCode.fromU32 (readU32 (payload.drop 4))).asU32.toNat ++ payload.drop 8), ?_, ?_, rfl⟩
    · simp [Frame.encodeParts, hid, bind, Except.bind, pure, Except.pure]
    · simp
      omega
  | windowUpdate =>
    simp only [bind_eq_ok, pure_eq_ok, requireLength, refuse_eq_ok] at hkind
    obtain ⟨_, hfour, _, hzero, rfl⟩ := hkind
    have hpositive : (readU32 payload &&& 0x7fffffff).toNat ≠ 0 := fun heq => hzero (UInt32.toNat_inj.1 heq)
    have hrange : (readU32 payload &&& 0x7fffffff).toNat ≤ 0x7fffffff := by
      rw [UInt32.toNat_and]
      exact Nat.and_le_right
    refine ⟨trivial, (.windowUpdate, 0, id, toBe 4 (readU32 payload &&& 0x7fffffff).toNat), ?_, ?_, rfl⟩
    · have hok : ¬ ((readU32 payload &&& 0x7fffffff).toNat = 0 ∨ (readU32 payload &&& 0x7fffffff).toNat > 0x7fffffff) := by
        rw [not_or]
        exact ⟨hpositive, Nat.not_lt.2 hrange⟩
      simp only [Frame.encodeParts, refuse, if_neg hok, bind, Except.bind, pure, Except.pure]
    · simp
      omega
  | continuation =>
    simp only [bind_eq_ok, pure_eq_ok] at hkind
    obtain ⟨_, hid, rfl⟩ := hkind
    refine ⟨trivial, (.continuation, flagIf (hasFlag flags flagEndHeaders) flagEndHeaders, id, payload), ?_, le_rfl, rfl⟩
    simp [Frame.encodeParts, hid, bind, Except.bind, pure, Except.pure]
  | unknown value =>
    obtain rfl := Except.ok.inj hkind
    exact hd.elim

/-- **Decoding, encoding and decoding again keeps the meaning.** A frame of a defined type that was decoded encodes, and
decoding what was written gives the same payload, the same stream, and ends the stream exactly if the frame did. -/
theorem encode_decode {octets : Octets} {frame : Frame} {maxFrameSize : ℕ}
    (h : Frame.decode octets maxFrameSize = .ok frame) (hd : frame.kind.Defined) :
    ∃ written again, frame.encode = .ok written ∧ Frame.decode written maxFrameSize = .ok again ∧
      again.kind = frame.kind ∧ again.header.streamId = frame.header.streamId ∧
      again.endsStream = frame.endsStream := by
  have haccepted := accepted_of_decode h
  obtain ⟨hc, parts, hparts⟩ := rewrites_of_accepted haccepted hd
  have hlength := hparts.length.trans haccepted.fits24
  have hmax := hparts.length.trans haccepted.fits
  exact ⟨_, _, encode_eq_ok.2 ⟨parts, hparts.encoded, hlength, rfl⟩,
    decode_encodeParts hd hc hparts.encoded hlength hmax, rfl, rfl, hparts.endsStream⟩

/-- **The frame codec round-trips.** Every frame of the constructors whose error codes and setting ids are canonical, that
encodes and fits the receiver's maximum, decodes to itself; and every octet string that decodes to a frame of a defined
type is one whose frame can be written again with the same kind, stream and `END_STREAM` meaning. -/
theorem frame_codec (maxFrameSize : ℕ) :
    (∀ frame octets, Built frame → frame.kind.Canonical → frame.encode = .ok octets →
      octets.length ≤ 9 + maxFrameSize → Frame.decode octets maxFrameSize = .ok frame) ∧
    ∀ octets frame, Frame.decode octets maxFrameSize = .ok frame → frame.kind.Defined →
      ∃ written again, frame.encode = .ok written ∧ Frame.decode written maxFrameSize = .ok again ∧
        again.kind = frame.kind ∧ again.header.streamId = frame.header.streamId ∧
        again.endsStream = frame.endsStream :=
  ⟨fun _ _ hbuilt hc h hmax => decode_encode hbuilt hc h hmax, fun _ _ h hd => encode_decode h hd⟩

/-- the octets "hi", padded, as the last `DATA` frame of stream 1 -/
def paddedSample : Octets := [0, 0, 5, 0, 9, 0, 0, 0, 1, 2, 104, 105, 0, 0]

/-- the frame of `paddedSample` -/
def sampleFrame : Frame := ⟨⟨5, .data, 9, ⟨1, by decide⟩⟩, .data [104, 105]⟩

theorem frame_codec_sample :
    Frame.decode [0, 0, 2, 0, 1, 0, 0, 0, 1, 104, 105] 16384 = .ok (.data ⟨1, by decide⟩ true [104, 105]) ∧
    ∃ written again, sampleFrame.encode = .ok written ∧ Frame.decode written 16384 = .ok again ∧
      again.kind = sampleFrame.kind ∧ again.header.streamId = sampleFrame.header.streamId ∧
      again.endsStream = sampleFrame.endsStream := by
  have hcodec := frame_codec 16384
  refine ⟨hcodec.1 _ _ (.data ⟨1, by decide⟩ true [104, 105]) trivial (by decide) (by decide), ?_⟩
  exact hcodec.2 paddedSample sampleFrame (by decide) trivial

end Render.H2
