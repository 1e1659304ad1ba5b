/-
What the handling of a frame can do to a connection, one change at a time.

`Step frame s t` lists the changes: what is counted and written, what a frame of its kind may touch, and for a stream only
the stream of the frame (`StreamStep`). Every run of the handlers is a path of such steps (`handleFrame_follows`), so an
invariant of the handlers is proved by a look at each kind of step.
-/
import Render.Core.Paths
import Render.H2.Runs

namespace Render.H2

open Render.Core Render.Core.Comp Run

/-! ## Steps -/

def FrameKind.isData : FrameKind → Bool
  | .data _ => true
  | _ => false

def FrameKind.isHeaderBlock : FrameKind → Bool
  | .headers _ _ _ _ => true
  | .continuation _ _ => true
  | _ => false

/-- the frames that are written while a frame is handled -/
def Reply (frame reply : Frame) : Prop :=
  match reply.kind with
  | .settings true [] => True
  | .ping true _ => True
  | .windowUpdate _ => frame.kind.isData = true
  | _ => False

/-- what a frame can do to its stream -/
inductive StreamStep (frame : Frame) (stream : Stream) : Stream → Prop
  | window (hdata : frame.kind.isData = true) (recvWindow : ℤ) : StreamStep frame stream { stream with recvWindow }
  | body (data : Octets) (hkind : frame.kind = .data data) :
      StreamStep frame stream { stream with body := stream.body ++ data }
  | bodyEnd (data : Octets) (hkind : frame.kind = .data data) : StreamStep frame stream
      { stream with body := stream.body ++ data, endStreamReceived := true, state := stream.state.remoteEnd }
  | fields (hblock : frame.kind.isHeaderBlock = true) (status : Option ℕ) (regular : List HeaderField) :
      StreamStep frame stream
        { stream with responseHeaders := stream.responseHeaders ++ regular, responseStatus := status }
  | ended (hblock : frame.kind.isHeaderBlock = true) :
      StreamStep frame stream { stream with endStreamReceived := true, state := stream.state.remoteEnd }
  | reset (code : ErrorCode) (hkind : frame.kind = .rstStream code) : StreamStep frame stream { stream with state := .closed }
  | credited (increment : UInt32) (hkind : frame.kind = .windowUpdate increment) :
      StreamStep frame stream { stream with sendWindow := stream.sendWindow + increment.toNat }

/-- one change that the handling of a frame makes -/
inductive Step (frame : Frame) (s : Session) : Session → Prop
  | counted (outcomes : List WriteOutcome) (stats : H2Stats) :
      Step frame s ⟨{ s.conn with io := { s.conn.io with outcomes }, stats }, s.trace⟩
  | closed : Step frame s ⟨s.conn.close, s.trace⟩
  | sent (reply : Frame) (hreply : Reply frame reply) : Step frame s ⟨s.conn, s.trace ++ [.sent s.conn reply]⟩
  | unflushed (reply : Frame) (hreply : Reply frame reply) : Step frame s ⟨s.conn, s.trace ++ [.unflushed reply]⟩
  | window (hdata : frame.kind.isData = true) (connRecvWindow : ℤ) :
      Step frame s ⟨{ s.conn with connRecvWindow }, s.trace⟩
  | decoder (hblock : frame.kind.isHeaderBlock = true) (decoder : HpackDecoder) :
      Step frame s ⟨{ s.conn with decoder }, s.trace⟩
  | pending (hblock : frame.kind.isHeaderBlock = true) (pendingInbound : Option PendingInboundHeaders)
      (hid : ∀ pending, pendingInbound = some pending → pending.streamId = frame.header.streamId) :
      Step frame s ⟨{ s.conn with pendingInbound }, s.trace⟩
  | stream (stream stream' : Stream) (hlookup : s.conn.streams.lookup frame.header.streamId = some stream)
      (hstep : StreamStep frame stream stream') :
      Step frame s ⟨s.conn.putStream frame.header.streamId stream', s.trace⟩
  | encoder (encoder : HpackEncoder) : Step frame s ⟨{ s.conn with encoder }, s.trace⟩
  | maxStreams (limit : UInt32) :
      Step frame s ⟨{ s.conn with peer := { s.conn.peer with maxConcurrentStreams := some limit } }, s.trace⟩
  | maxFrameSize (settings : List Setting) (value : UInt32) (hkind : frame.kind = .settings false settings)
      (hmem : ⟨.maxFrameSize, value⟩ ∈ settings) :
      Step frame s ⟨{ s.conn with peer := { s.conn.peer with maxFrameSize := value } }, s.trace⟩
  | initialWindow (settings : List Setting) (value : UInt32) (hkind : frame.kind = .settings false settings)
      (hmem : ⟨.initialWindowSize, value⟩ ∈ settings) :
      Step frame s ⟨{ s.conn with
        peer := { s.conn.peer with initialWindowSize := value }
        streams := shiftStreams ((value.toNat : ℤ) - s.conn.peer.initialWindowSize.toNat) s.conn.streams }, s.trace⟩
  | opened (increment : UInt32) (hkind : frame.kind = .windowUpdate increment)
      (hconnection : frame.header.streamId.isConnection = true) :
      Step frame s ⟨{ s.conn with connSendWindow := s.conn.connSendWindow + increment.toNat }, s.trace⟩
  | goAway (goaway : StreamId × ErrorCode × Octets) :
      Step frame s ⟨{ s.conn with goaway := some goaway, state := .closed }, s.trace⟩

/-! ## Rules -/

section Rules

variable {R : Session → Session → Prop} {α β : Type} {s : Session}

theorem followsFrom_conn_bind {f : H2Connection → Run β} (hf : FollowsFrom R (f s.conn) s) :
    FollowsFrom R (conn >>= f) s := hf

theorem followsFrom_update_bind {g : H2Connection → H2Connection} {f : Unit → Run β} (hstep : R s ⟨g s.conn, s.trace⟩)
    (hf : FollowsFrom R (f ()) ⟨g s.conn, s.trace⟩) : FollowsFrom R (update g >>= f) s :=
  .bind (.modify hstep) fun a t hrun => by
    cases hrun
    exact hf

theorem follows_raise (error : H2Error) : Follows R (raise error : Run α) := .fail _

theorem follows_panic : Follows R (panic : Run α) := .fail _

theorem follows_propagate (result : Except H2Error α) : Follows R (propagate result) := by
  cases result with
  | ok a => exact .pure a
  | error error => exact follows_raise error

end Rules

section Handlers

variable {frame : Frame} {s : Session}

theorem writeFrame_follows {reply : Frame} (hreply : Reply frame reply) : Follows (Step frame) (writeFrame reply) := by
  intro s r t hrun
  have hwritten : ∀ outcomes, Relation.ReflTransGen (Step frame) s
      ⟨s.conn.wrote outcomes, s.trace ++ [.sent (s.conn.writing outcomes) reply]⟩ := by
    intro outcomes
    refine .tail (.tail (.single (.counted outcomes s.conn.stats)) (.sent reply hreply)) ?_
    exact .counted outcomes _
  cases writeFrame_cases hrun with
  | sent outcomes => exact hwritten outcomes
  | refused error hencode => exact .refl
  | failed outcomes message => exact .tail (.single (.counted outcomes s.conn.stats)) .closed
  | unflushed outcomes message =>
    have htrace : (s.trace ++ [Event.sent (s.conn.writing outcomes) reply]) ++ [.unflushed reply] =
        s.trace ++ [.sent (s.conn.writing outcomes) reply, .unflushed reply] := by simp
    rw [← htrace]
    exact .tail (hwritten outcomes) (.unflushed reply hreply)

theorem sendWindowUpdate_follows (hdata : frame.kind.isData = true) (id : StreamId) (increment : UInt32) :
    Follows (Step frame) (sendWindowUpdate id increment) := by
  rw [sendWindowUpdate]
  refine .ite (.pure ()) (.bind (writeFrame_follows hdata) fun _ s => ?_)
  exact .modify (.counted s.conn.io.outcomes _)

theorem acceptSettings_follows {settings : List Setting} (hkind : frame.kind = .settings false settings) :
    Follows (Step frame) (acceptSettings settings) := by
  have hsetting : ∀ setting ∈ settings, Follows (Step frame) (applyPeerSetting setting) := by
    intro setting hmem s
    obtain ⟨id, value⟩ := setting
    rw [applyPeerSetting]
    cases id with
    | headerTableSize => exact .modify (.encoder _)
    | enablePush => exact .ite (fun _ => follows_raise _ _) fun _ => .pure ()
    | maxConcurrentStreams => exact .modify (.maxStreams value)
    | initialWindowSize =>
      refine followsFrom_conn_bind (followsFrom_update_bind (.initialWindow settings value hkind hmem) ?_)
      exact .ite (fun _ => follows_raise _ _) fun _ => .pure ()
    | maxFrameSize => exact .modify (.maxFrameSize settings value hkind hmem)
    | maxHeaderListSize => exact .pure ()
    | unknown value => exact .pure ()
  refine .bind (.forEach settings hsetting) fun _ => .bind (writeFrame_follows trivial) fun _ s => ?_
  exact .modify (.counted s.conn.io.outcomes _)

theorem putStream_lookup (c : H2Connection) (id : StreamId) (stream : Stream) :
    (c.putStream id stream).streams.lookup id = some stream := AList.lookup_insert _

theorem handleData_follows {data : Octets} (hkind : frame.kind = .data data) (endStream : Bool) (flowLength : ℕ) :
    Follows (Step frame) (handleData frame.header.streamId endStream flowLength data) := by
  have hdata : frame.kind.isData = true := by rw [hkind]; rfl
  have hcredit : Follows (Step frame) (creditData frame.header.streamId endStream flowLength) := by
    rw [creditData]
    refine .ite ?_ (.pure ())
    refine .bind (sendWindowUpdate_follows hdata _ _) fun _ s => followsFrom_update_bind (.window hdata _) ?_
    refine .ite (fun _ => .pure ()) fun _ => ?_
    refine .bind (sendWindowUpdate_follows hdata _ _ _) fun _ t _ => followsFrom_conn_bind ?_
    cases hlookup : t.conn.streams.lookup frame.header.streamId with
    | none => exact .pure ()
    | some stream => exact .modify (.stream stream _ hlookup (.window hdata _))
  have haccept : Follows (Step frame) (acceptData frame.header.streamId endStream flowLength data) := by
    intro s
    rw [acceptData]
    refine followsFrom_conn_bind ?_
    cases hlookup : s.conn.streams.lookup frame.header.streamId with
    | none => exact follows_panic s
    | some stream =>
      refine followsFrom_update_bind (.stream stream _ hlookup (.window hdata _)) ?_
      refine .ite (fun _ => follows_raise _ _) fun _ => .ite (fun _ => follows_raise _ _) fun _ => ?_
      refine followsFrom_update_bind (.stream _ _ (putStream_lookup _ _ _) ?_) (hcredit _)
      split_ifs
      · exact .bodyEnd data hkind
      · exact .body data hkind
  intro s
  rw [handleData]
  refine followsFrom_conn_bind ?_
  cases hlookup : s.conn.streams.lookup frame.header.streamId with
  | none => exact follows_raise _ s
  | some stream =>
    refine .ite (fun _ => follows_raise _ _) fun _ => .ite (fun _ => follows_raise _ _) fun _ => ?_
    refine followsFrom_update_bind (.window hdata _) ?_
    exact .ite (fun _ => follows_raise _ _) fun _ => haccept _

theorem keepFields_follows (hblock : frame.kind.isHeaderBlock = true) (endStream : Bool)
    (fields : Option ℕ × List HeaderField) : Follows (Step frame) (keepFields frame.header.streamId endStream fields) := by
  have hstore : ∀ status regular, Follows (Step frame) (storeFields frame.header.streamId status regular) := by
    intro status regular s
    rw [storeFields]
    refine followsFrom_conn_bind ?_
    cases hlookup : s.conn.streams.lookup frame.header.streamId with
    | none => exact follows_panic s
    | some stream =>
      cases status with
      | some status => exact .modify (.stream stream _ hlookup (.fields hblock (some status) regular))
      | none => exact .modify (.stream stream _ hlookup (.fields hblock stream.responseStatus regular))
  have hend : Follows (Step frame) (markRemoteEnd frame.header.streamId) := by
    intro s
    rw [markRemoteEnd]
    refine followsFrom_conn_bind ?_
    cases hlookup : s.conn.streams.lookup frame.header.streamId with
    | none => exact follows_raise _ s
    | some stream =>
      exact .ite (fun _ => follows_raise _ _) fun _ => .modify (.stream stream _ hlookup (.ended hblock))
  rw [keepFields]
  exact .ite (.ite (follows_raise _) (.pure ())) (.bind (hstore _ _) fun _ => .when hend)

theorem checkHeaderBlockSize_follows (size : ℕ) : Follows (Step frame) (checkHeaderBlockSize size) := by
  intro s
  rw [checkHeaderBlockSize]
  exact followsFrom_conn_bind (.ite (fun _ => follows_raise _ _) fun _ => .pure ())

theorem finishHeaderBlock_follows (hblock : frame.kind.isHeaderBlock = true) (trailers endStream : Bool)
    (fragment : Octets) : Follows (Step frame) (finishHeaderBlock frame.header.streamId trailers endStream fragment) := by
  have hdecode : Follows (Step frame) (decodeBlock fragment) := by
    intro s
    rw [decodeBlock]
    refine followsFrom_conn_bind (followsFrom_update_bind (.decoder hblock _) ?_)
    split
    · exact .pure _
    · exact follows_raise _ _
    · exact follows_raise _ _
  refine .bind (checkHeaderBlockSize_follows _) fun _ => .bind hdecode fun decoded s => followsFrom_conn_bind ?_
  exact .bind (follows_propagate _ s) fun fields t _ => keepFields_follows hblock endStream fields t

theorem handleHeaders_follows (hblock : frame.kind.isHeaderBlock = true) (endStream endHeaders : Bool)
    (fragment : Octets) : Follows (Step frame) (handleHeaders frame.header.streamId endStream endHeaders fragment) := by
  intro s
  rw [handleHeaders]
  refine followsFrom_conn_bind ?_
  cases hlookup : s.conn.streams.lookup frame.header.streamId with
  | none => exact follows_raise _ s
  | some stream =>
    refine .ite (fun _ => follows_raise _ _) fun _ => .ite (fun _ => finishHeaderBlock_follows hblock _ _ _ _) fun _ => ?_
    refine .bind (checkHeaderBlockSize_follows _ _) fun _ t _ => .modify (.pending hblock _ ?_)
    rintro pending ⟨⟩
    rfl

/-- the open block is one of the stream of the frame -/
theorem handleContinuation_follows (hblock : frame.kind.isHeaderBlock = true) {endHeaders : Bool} {fragment : Octets}
    (hpending : ∀ pending, s.conn.pendingInbound = some pending → pending.streamId = frame.header.streamId) :
    FollowsFrom (Step frame) (handleContinuation endHeaders fragment) s := by
  rw [handleContinuation]
  refine followsFrom_conn_bind ?_
  cases hsome : s.conn.pendingInbound with
  | none => exact follows_raise _ s
  | some pending =>
    have hid := hpending pending hsome
    have hextend := @extendPending_run fragment pending s hsome
    refine .bind ?_ ?_
    · intro r t hrun
      rw [hextend] at hrun
      cases hrun
      refine .single (.pending hblock _ ?_)
      rintro pending' ⟨⟩
      exact hid
    · intro _ t hrun
      rw [hextend] at hrun
      cases hrun
      refine .bind (checkHeaderBlockSize_follows _ _) ?_
      intro _ t hrun
      rw [checkHeaderBlockSize_run] at hrun
      split_ifs at hrun
      · cases hrun
      · cases hrun
        refine .ite (fun _ => ?_) fun _ => .pure ()
        refine .bind ?_ ?_
        · intro r t hrun
          rw [takePending_run rfl] at hrun
          cases hrun
          exact .single (.pending hblock none (by simp))
        · intro pending' t hrun
          rw [takePending_run rfl] at hrun
          cases hrun
          rw [hid]
          exact finishHeaderBlock_follows hblock _ _ _ _

theorem ignorePriority_follows : Follows (Step frame) ignorePriority :=
  fun s => .modify (.counted s.conn.io.outcomes _)

theorem handleRstStream_follows {code : ErrorCode} (hkind : frame.kind = .rstStream code) :
    Follows (Step frame) (handleRstStream frame.header.streamId code) := by
  intro s
  rw [handleRstStream]
  refine followsFrom_conn_bind ?_
  cases hlookup : s.conn.streams.lookup frame.header.streamId with
  | none => exact follows_raise _ s
  | some stream =>
    refine .ite (fun _ => .pure ()) fun _ => ?_
    exact followsFrom_update_bind (.stream stream _ hlookup (.reset code hkind)) (follows_raise _ _)

theorem handleWindowUpdate_follows {increment : UInt32} (hkind : frame.kind = .windowUpdate increment) :
    Follows (Step frame) (handleWindowUpdate frame.header.streamId increment) := by
  intro s
  rw [handleWindowUpdate]
  refine followsFrom_conn_bind (.ite (fun hconnection => ?_) fun _ => ?_)
  · refine followsFrom_update_bind (.opened increment hkind hconnection) ?_
    exact .ite (fun _ => follows_raise _ _) fun _ => .pure ()
  · cases hlookup : s.conn.streams.lookup frame.header.streamId with
    | none => exact follows_raise _ s
    | some stream =>
      refine .ite (fun _ => .pure ()) fun _ => ?_
      refine followsFrom_update_bind (.stream stream _ hlookup (.credited increment hkind)) ?_
      exact .ite (fun _ => follows_raise _ _) fun _ => .pure ()

end Handlers

/-- **Frames.** The handling of a frame is a path of its steps. -/
theorem handleFrame_follows (frame : Frame) : Follows (Step frame) (handleFrame frame) := by
  intro s
  rw [handleFrame]
  refine followsFrom_conn_bind ?_
  rcases horder : checkBlockOrder s.conn frame with error | ⟨⟩
  · exact follows_raise error s
  · rw [propagate_ok, pure_bind, handleKind]
    cases hkind : frame.kind with
    | data data => exact handleData_follows hkind _ _ s
    | headers endStream endHeaders priority fragment =>
      have hblock : frame.kind.isHeaderBlock = true := by rw [hkind]; rfl
      exact .bind (Follows.when ignorePriority_follows s) fun _ t _ => handleHeaders_follows hblock _ _ _ t
    | priority priority => exact ignorePriority_follows s
    | rstStream errorCode => exact handleRstStream_follows hkind s
    | settings ack settings =>
      cases ack with
      | true => exact .pure ()
      | false => exact acceptSettings_follows hkind s
    | pushPromise endHeaders promisedStreamId fragment => exact follows_raise _ s
    | ping ack payload =>
      refine .ite (fun _ => .pure ()) fun _ => writeFrame_follows ?_ s
      trivial
    | goAway lastStreamId errorCode debugData => exact followsFrom_update_bind (.goAway _) (follows_raise _ _)
    | windowUpdate increment => exact handleWindowUpdate_follows hkind s
    | continuation endHeaders fragment =>
      refine handleContinuation_follows (by rw [hkind]; rfl) ?_
      intro pending hpending
      have hsame : ¬ frame.header.streamId ≠ pending.streamId := by
        simpa [checkBlockOrder, hpending, hkind, refuse_eq_ok] using horder
      exact (not_not.1 hsame).symm
    | unknown frameType payload => exact .modify (.counted s.conn.io.outcomes _)

end Render.H2
