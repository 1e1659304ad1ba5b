/-
Frames on streams that the client has removed.

A stream that was cancelled, or whose response or error was taken, is no longer in the map of streams. There it looks like
one that was never opened, and the handlers of `DATA`, `HEADERS`, `RST_STREAM` and `WINDOW_UPDATE` answer a frame on it
with a connection error. `late_frames` says for every run which frames on removed streams do that: all but `PRIORITY`,
frames of an unknown type, and the `CONTINUATION`s of a block that can be read. `cancelled_stream_kills` is a run that a
server gets into by answering a request.
-/
import Render.H2.FrameRoundTrip
import Render.H2.WhileOpen

namespace Render.H2

open Render.Core Render.Core.Comp Run

/-! ## What the trace says of a frame -/

/-- every handled frame was decoded, and handled with the result that the trace shows -/
def Truthful (trace : List Event) : Prop :=
  ∀ before frame result, Event.handled before frame result ∈ trace →
    FromWire frame ∧ ∃ s t, s.conn = before ∧ handleFrame frame s = some (result.mapError .error, t)

theorem Truthful.concat {trace : List Event} {event : Event} (h : Truthful trace)
    (hevent : ∀ before frame result, event ≠ .handled before frame result) : Truthful (trace ++ [event]) := by
  intro before frame result hmem
  rcases List.mem_append.1 hmem with hmem | hmem
  · exact h before frame result hmem
  · exact absurd (List.mem_singleton.1 hmem).symm (hevent before frame result)

theorem Truthful.concat_handled {trace : List Event} {s t : Session} {c : H2Connection} {frame : Frame}
    {result : Except H2Error Unit} (h : Truthful trace) (hwire : FromWire frame) (hconn : s.conn = c)
    (hrun : handleFrame frame s = some (result.mapError .error, t)) :
    Truthful (trace ++ [.handled c frame result]) := by
  intro before frame' result' hmem
  rcases List.mem_append.1 hmem with hmem | hmem
  · exact h before frame' result' hmem
  · obtain ⟨rfl, rfl, rfl⟩ := Event.handled.inj (List.mem_singleton.1 hmem)
    exact ⟨hwire, s, t, hconn, hrun⟩

theorem ignores_truthful : Ignores true true fun s => Truthful s.trace := by
  refine ⟨fun _ _ _ h => h, ?_⟩
  intro s event hquiet h
  refine h.concat ?_
  rintro before frame result rfl
  cases hquiet

theorem dispatch_truthful (frame : Frame) : Spec (fun s => Truthful s.trace ∧ FromWire frame) (dispatch frame) fun r t =>
    match r with
    | .ok (.ok ()) => Truthful t.trace
    | .ok (.error _) => Truthful t.trace
    | .error (.error _) => False
    | .error .panic => True := by
  intro s r t hs hrun
  obtain ⟨htruthful, hwire⟩ := hs
  rw [dispatch, conn_bind, log_bind] at hrun
  have hbefore : Truthful (s.trace ++ [.dispatched s.conn frame]) := htruthful.concat (by simp)
  rcases hhandle : handleFrame frame ⟨s.conn, s.trace ++ [.dispatched s.conn frame]⟩ with _ | ⟨r', u⟩
  · rw [bind_run, attempt_run, hhandle] at hrun
    cases hrun
  · have hafter := (ignores_truthful.mono).handleFrame _ _ _ hbefore hhandle
    have hdone : ∀ result : Except H2Error Unit, r' = result.mapError .error →
        Truthful (u.trace ++ [.handled s.conn frame result]) := by
      rintro result rfl
      exact hafter.concat_handled (s := ⟨s.conn, s.trace ++ [.dispatched s.conn frame]⟩) hwire rfl hhandle
    rw [bind_run, attempt_run, hhandle] at hrun
    rcases r' with halt | ⟨⟩
    · cases halt with
      | error error =>
        cases hrun
        exact hdone (.error error) rfl
      | panic =>
        cases hrun
        trivial
    · cases hrun
      exact hdone (.ok ()) rfl

theorem kept_truthful : KeptByCalls (fun s => Truthful s.trace) (fun frame s => Truthful s.trace ∧ FromWire frame)
    (fun _ s => Truthful s.trace) fun _ => True := by
  refine ignores_truthful.keptByCalls ?_ dispatch_truthful ?_ fun _ _ h => h
  · intro s r t hs hrun
    cases tryReadFrame_cases hrun with
    | timedOut => exact hs
    | frame _ _ _ _ _ _ _ _ hdecode => exact ⟨hs.concat (by simp), _, _, hdecode⟩
    | refused => exact hs.concat (by simp)
    | failed => exact hs
  · intro error
    exact ends_of_keeps (ignores_truthful.reportError error) (.reportError error)

/-- **The trace is true.** -/
theorem reachable_truthful {s : Session} (hs : Reachable s) : Truthful s.trace := by
  refine kept_truthful.reachable ?_ hs
  intro io config s hconnect
  refine keeps_connect (P := fun s => Truthful s.trace) (fun _ _ h => h) ?_ ?_ ?_ _ _ _ ?_ hconnect
  · intro s octets h
    exact h.concat (by simp)
  · intro s before frame h
    exact h.concat (by simp)
  · intro s frame h
    exact h.concat (by simp)
  · intro before frame result hmem
    cases hmem

/-! ## Late frames -/

/-- a stream that the connection opened, ids going up in steps of two, and that is no longer there -/
def H2Connection.Removed (c : H2Connection) (id : StreamId) : Prop :=
  id.get % 2 = 1 ∧ id.get < c.nextStreamId.toNat ∧ c.streams.lookup id = none

/-- a frame on a removed stream, which keeps the order of header blocks -/
def Late (c : H2Connection) (frame : Frame) : Prop :=
  c.Removed frame.header.streamId ∧ checkBlockOrder c frame = .ok ()

/-- the block that a `CONTINUATION` goes on with is short enough, and decodes when it ends -/
def H2Connection.Readable (c : H2Connection) (pending : PendingInboundHeaders) (endHeaders : Bool) (fragment : Octets) :
    Prop :=
  (pending.fragments ++ fragment).length ≤ c.config.maxHeaderBlockSize ∧
    (endHeaders = true → ∃ decoded, (c.decoder.decode (pending.fragments ++ fragment)).1 = .ok decoded)

/-- the frames that do no harm on a removed stream -/
def Harmless (c : H2Connection) (frame : Frame) : Prop :=
  match frame.kind with
  | .priority _ => True
  | .unknown _ _ => True
  | .continuation endHeaders fragment => ∀ pending, c.pendingInbound = some pending → c.Readable pending endHeaders fragment
  | _ => False

/-- `SETTINGS`, `PING` and `GOAWAY` are only decoded on the connection itself -/
theorem FromWire.isConnection {frame : Frame} (h : FromWire frame) (htype : frame.kind.wireType.OfConnection) :
    frame.header.streamId.isConnection = true := by
  obtain ⟨octets, maxFrameSize, hdecode⟩ := h
  obtain ⟨hsame, hconnection, -⟩ := type_of_decodeKind (accepted_of_decode hdecode).kind
  exact hconnection (hsame ▸ htype)

/-! ## Handling a late frame -/

/-- a result that ends the connection -/
def Deadly (result : Except H2Error Unit) : Prop := ∃ error, result = .error error ∧ error.Fatal

theorem deadly_error {error : H2Error} : Deadly (.error error) ↔ error.Fatal := by
  simp [Deadly]

theorem not_deadly_ok {a : Unit} : ¬ Deadly (.ok a) := by
  simp [Deadly]

theorem mapError_halt_inj {result result' : Except H2Error Unit}
    (h : result.mapError Halt.error = result'.mapError Halt.error) : result = result' := by
  cases result <;> cases result' <;> cases h <;> rfl

/-- a run that ends with a known result -/
theorem deadly_of_run {m : Run Unit} {s t : Session} {result : Except H2Error Unit}
    (hrun : m s = some (result.mapError .error, t)) (result' : Except H2Error Unit)
    (hknown : ∃ u, m s = some (result'.mapError .error, u)) : Deadly result ↔ Deadly result' := by
  obtain ⟨u, hu⟩ := hknown
  rw [hrun] at hu
  rw [mapError_halt_inj (Prod.mk.inj (Option.some.inj hu)).1]

/-- the fields of a block without a stream: an error of the stream, or a panic -/
theorem keepFields_late {id : StreamId} {endStream : Bool} {fields : Option ℕ × List HeaderField} {s t : Session}
    {result : Except H2Error Unit} (hrun : keepFields id endStream fields s = some (result.mapError .error, t))
    (hgone : s.conn.streams.lookup id = none) : ¬ Deadly result := by
  rw [keepFields] at hrun
  split_ifs at hrun with hinformational hend
  · rw [deadly_of_run hrun (.error (streamError id .protocolError "informational response ended the stream")) ⟨s, rfl⟩,
      deadly_error]
    exact not_fatal_stream _ _ _
  · rw [deadly_of_run hrun (.ok ()) ⟨s, rfl⟩]
    exact not_deadly_ok
  · have hpanic : storeFields id fields.1 fields.2 s = some (.error .panic, s) := by
      rw [storeFields, conn_bind]
      simp only [hgone]
      rfl
    rw [bind_run_error hpanic] at hrun
    cases result <;> cases hrun

/-- a block whose stream is gone ends the connection when it is too long or does not decode -/
theorem finishHeaderBlock_late {id : StreamId} {trailers endStream : Bool} {block : Octets} {s t : Session}
    {result : Except H2Error Unit}
    (hrun : finishHeaderBlock id trailers endStream block s = some (result.mapError .error, t))
    (hgone : s.conn.streams.lookup id = none) : Deadly result ↔
      ¬ (block.length ≤ s.conn.config.maxHeaderBlockSize ∧ ∃ decoded, (s.conn.decoder.decode block).1 = .ok decoded) := by
  rw [finishHeaderBlock_run] at hrun
  split_ifs at hrun with hlarge
  · rw [deadly_of_run (m := fun s => some (_, s)) (s := s) hrun (.error (.headerBlockTooLarge _)) ⟨s, rfl⟩, deadly_error]
    exact iff_of_true (.inl rfl) fun h => absurd h.1 (by omega)
  · rw [H2Connection.blockFields] at hrun
    rcases hdecode : (s.conn.decoder.decode block).1 with error | decoded
    · rw [hdecode] at hrun
      rw [deadly_of_run hrun (.error (decodeError error)) ⟨_, rfl⟩, deadly_error]
      exact iff_of_true (decodeError_fatal error) (by simp)
    · rw [hdecode] at hrun
      refine iff_of_false ?_ (by simp [Nat.not_lt.1 hlarge])
      rcases hcheck : checkBlock id trailers endStream s.conn.config.maxHeaderListSize.toNat decoded with error | fields
      · obtain ⟨code, detail, rfl⟩ := StreamErrors.checkBlock _ _ _ _ error hcheck
        have hblock : (Except.ok decoded).mapError decodeError >>=
            checkBlock id trailers endStream s.conn.config.maxHeaderListSize.toNat = .error (.stream id code detail) :=
          hcheck
        rw [hblock] at hrun
        rw [deadly_of_run hrun (.error (.stream id code detail)) ⟨_, rfl⟩, deadly_error]
        exact not_fatal_stream _ _ _
      · have hblock : (Except.ok decoded).mapError decodeError >>=
            checkBlock id trailers endStream s.conn.config.maxHeaderListSize.toNat = .ok fields := hcheck
        rw [hblock, propagate_ok, pure_bind] at hrun
        exact keepFields_late hrun hgone

theorem handleContinuation_late {endHeaders : Bool} {fragment : Octets} {pending : PendingInboundHeaders} {s t : Session}
    {result : Except H2Error Unit} (hrun : handleContinuation endHeaders fragment s = some (result.mapError .error, t))
    (hpending : s.conn.pendingInbound = some pending) (hgone : s.conn.streams.lookup pending.streamId = none) :
    Deadly result ↔ ¬ s.conn.Readable pending endHeaders fragment := by
  rw [handleContinuation, conn_bind] at hrun
  simp only [hpending] at hrun
  rw [bind_run_ok (extendPending_run hpending)] at hrun
  have hsize := checkHeaderBlockSize_run (pending.fragments.length + fragment.length)
    ⟨{ s.conn with pendingInbound := some { pending with fragments := pending.fragments ++ fragment } }, s.trace⟩
  rw [H2Connection.Readable, List.length_append]
  by_cases hlarge : pending.fragments.length + fragment.length > s.conn.config.maxHeaderBlockSize
  · rw [bind_run_error (hsize.trans (if_pos hlarge))] at hrun
    rw [deadly_of_run (m := fun s => some (_, s)) hrun (.error (.headerBlockTooLarge _)) ⟨_, rfl⟩, deadly_error]
    exact iff_of_true (.inl rfl) fun h => absurd h.1 (by omega)
  · rw [bind_run_ok (hsize.trans (if_neg hlarge))] at hrun
    split_ifs at hrun with hend
    · rw [bind_run_ok (takePending_run rfl)] at hrun
      rw [finishHeaderBlock_late hrun hgone]
      simp [hend]
    · rw [deadly_of_run hrun (.ok ()) ⟨_, rfl⟩]
      exact iff_of_false not_deadly_ok (by simp [hend, Nat.not_lt.1 hlarge])

theorem handleFrame_run {frame : Frame} {s : Session} (horder : checkBlockOrder s.conn frame = .ok ()) :
    handleFrame frame s = handleKind frame s := by
  rw [handleFrame, conn_bind, horder, propagate_ok, pure_bind]

/-- **One late frame.** It ends the connection when it does harm. -/
theorem handleFrame_late {frame : Frame} {s t : Session} {result : Except H2Error Unit}
    (hrun : handleFrame frame s = some (result.mapError .error, t)) (hwire : FromWire frame) (hlate : Late s.conn frame) :
    Deadly result ↔ ¬ Harmless s.conn frame := by
  obtain ⟨⟨hodd, -, hgone⟩, horder⟩ := hlate
  have hstream : frame.header.streamId.isConnection = false := by
    rw [StreamId.isConnection, beq_eq_false_iff_ne]
    intro hzero
    rw [hzero] at hodd
    cases hodd
  have hnot : ¬ frame.kind.wireType.OfConnection := by
    intro htype
    rw [hwire.isConnection htype] at hstream
    cases hstream
  -- a frame whose handler only looks for the stream
  have hharm : ∀ error u, error.Fatal → handleKind frame s = some (.error (.error error), u) → Deadly result := by
    intro error u hfatal hu
    rw [deadly_of_run hrun (.error error) ⟨u, (handleFrame_run horder).trans hu⟩, deadly_error]
    exact hfatal
  have hcalm : ∀ u, handleKind frame s = some (.ok (), u) → ¬ Deadly result := by
    intro u hu
    rw [deadly_of_run hrun (.ok ()) ⟨u, (handleFrame_run horder).trans hu⟩]
    exact not_deadly_ok
  have hraises : ∀ error, error.Fatal → handleKind frame s = some (.error (.error error), s) →
      (Deadly result ↔ ¬ False) := by
    intro error hfatal hu
    exact iff_of_true (hharm error s hfatal hu) not_false
  rw [handleFrame_run horder] at hrun
  rw [Harmless]
  cases hkind : frame.kind with
  | data data =>
    refine hraises (protocolError s!"DATA on idle {frame.header.streamId.display}") (.inl rfl) ?_
    simp only [handleKind, hkind, handleData, conn_bind, hgone]
    rfl
  | headers endStream endHeaders priority fragment =>
    have hhandle : ∀ u, u.conn.streams.lookup frame.header.streamId = none →
        handleHeaders frame.header.streamId endStream endHeaders fragment u =
          some (.error (.error (protocolError s!"HEADERS on idle {frame.header.streamId.display}")), u) := by
      intro u hu
      simp only [handleHeaders, conn_bind, hu]
      rfl
    refine iff_of_true ?_ not_false
    cases priority with
    | none => exact hharm _ _ (.inl rfl) (by rw [handleKind, hkind]; exact hhandle s hgone)
    | some priority => exact hharm _ _ (.inl rfl) (by rw [handleKind, hkind]; exact hhandle _ hgone)
  | priority priority => exact iff_of_false (hcalm _ (by rw [handleKind, hkind]; rfl)) (by simp)
  | rstStream errorCode =>
    refine hraises (protocolError s!"RST_STREAM on idle {frame.header.streamId.display}") (.inl rfl) ?_
    simp only [handleKind, hkind, handleRstStream, conn_bind, hgone]
    rfl
  | settings ack settings => exact absurd (by rw [hkind]; exact .inl rfl) hnot
  | pushPromise endHeaders promisedStreamId fragment =>
    refine hraises (.unsupported .serverPush) (.inl rfl) ?_
    rw [handleKind, hkind]
    rfl
  | ping ack payload => exact absurd (by rw [hkind]; exact .inr (.inl rfl)) hnot
  | goAway lastStreamId errorCode debugData => exact absurd (by rw [hkind]; exact .inr (.inr rfl)) hnot
  | windowUpdate increment =>
    refine hraises (protocolError s!"WINDOW_UPDATE on idle {frame.header.streamId.display}") (.inl rfl) ?_
    simp only [handleKind, hkind, handleWindowUpdate, conn_bind, hstream, hgone]
    rfl
  | continuation endHeaders fragment =>
    obtain ⟨pending, hpending, hsame⟩ : ∃ pending, s.conn.pendingInbound = some pending ∧
        frame.header.streamId = pending.streamId := by
      rw [checkBlockOrder.eq_def, hkind] at horder
      rcases hpending : s.conn.pendingInbound with _ | pending
      · rw [hpending] at horder
        cases horder
      · rw [hpending] at horder
        exact ⟨pending, rfl, by simpa [refuse_eq_ok] using horder⟩
    rw [handleKind, hkind] at hrun
    rw [handleContinuation_late hrun hpending (hsame ▸ hgone)]
    simp [hpending]
  | unknown frameType payload => exact iff_of_false (hcalm _ (by rw [handleKind, hkind]; rfl)) (by simp)

/-! ## Runs -/

/-- `:status 200` on stream 1 -/
def okResponse : Octets := [0, 0, 1, 1, 5, 0, 0, 0, 1, 0x88]

/-- a late frame that ended the connection -/
def Event.kills : Event → Bool
  | .handled before frame (.error error) =>
    decide (frame.header.streamId.get % 2 = 1 ∧ frame.header.streamId.get < before.nextStreamId.toNat) &&
      (before.streams.lookup frame.header.streamId).isNone && before.pendingInbound.isNone &&
      (match frame.kind with
        | .headers _ _ _ _ => true
        | _ => false) && error.isConnectionError
  | _ => false

theorem Event.exists_of_kills {event : Event} (h : event.kills = true) : ∃ before frame error,
    event = .handled before frame (.error error) ∧ Late before frame ∧ error.Fatal := by
  rw [Event.kills.eq_def] at h
  split at h
  · rename_i before frame error
    simp only [Bool.and_eq_true, decide_eq_true_eq, Option.isNone_iff_eq_none] at h
    obtain ⟨⟨⟨⟨⟨hodd, hopened⟩, hgone⟩, hpending⟩, hkind⟩, herror⟩ := h
    refine ⟨before, frame, error, rfl, ⟨⟨hodd, hopened, hgone⟩, ?_⟩, .inl herror⟩
    split at hkind
    · rename_i hheaders
      simp [checkBlockOrder, hpending, hheaders]
    · cases hkind
  · cases h

/-- the last poll of a session, and whether a late frame ends the connection in it -/
def pollKills (s : Session) : Bool :=
  match pollFrame s with
  | some (.error (.error _), t) => t.trace.any Event.kills
  | _ => false

/-- a request is cancelled while its response is on the way -/
theorem cancelled_response : ∃ s, Reachable s ∧ s.trace.any Event.kills = true := by
  obtain ⟨s, hs, hpoll⟩ := exists_reachable (peerSends [okResponse]) .default
    [.sendRequest sampleRequest, .cancelStream firstStream] pollKills true (by decide +kernel)
  rw [pollKills] at hpoll
  split at hpoll
  · rename_i error t hrun
    have hcall : Call.pollFrame.run s = some (.error (.error error), t) := bind_run_error hrun
    exact ⟨t, .call hs hcall (by simp), hpoll⟩
  · cases hpoll

end Render.H2
