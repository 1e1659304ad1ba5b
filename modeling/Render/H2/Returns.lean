/-
Every step of a connection returns. The handlers of frames have no loop of their own beyond those over lists that a frame
brings (`total_pollFrame`).
-/
import Render.H2.Frames

namespace Render.H2

open Render.Core Render.Core.Comp Run

/-! ## Primitive steps -/

theorem total_raise {α : Type} (error : H2Error) : Total (raise error : Run α) := .fail _

theorem total_panic {α : Type} : Total (panic : Run α) := .fail _

theorem total_update (f : H2Connection → H2Connection) : Total (update f) := .modify _

theorem total_log (event : Event) : Total (log event) := .modify _

theorem total_conn_bind {β : Type} {f : H2Connection → Run β} (hf : ∀ c, Total (f c)) : Total (conn >>= f) :=
  .bind (.check _) hf

theorem total_propagate {α : Type} (result : Except H2Error α) : Total (propagate result) := by
  cases result with
  | ok a => exact .pure a
  | error error => exact total_raise error

theorem total_attempt {α : Type} {m : Run α} (hm : Total m) : Total (attempt m) := by
  refine .recover (.bind hm fun _ => .pure _) ?_
  intro halt
  cases halt with
  | error error => exact .pure _
  | panic => exact total_panic

theorem total_ignore {m : Run Unit} (hm : Total m) : Total (ignore m) := .bind (total_attempt hm) fun _ => .pure ()

/-! ## Writing and reading -/

theorem total_writeFrame (frame : Frame) : Total (writeFrame frame) := by
  have hwrote : Total (writeFrame.wrote frame) :=
    total_conn_bind fun c => .bind (total_log _) fun _ => total_update _
  have houtcome : Total nextOutcome := by
    refine total_conn_bind fun c => ?_
    split
    · exact .pure _
    · exact .bind (total_update _) fun _ => .pure _
  refine .bind (total_propagate _) fun _ => .bind houtcome fun outcome => ?_
  cases outcome with
  | done => exact hwrote
  | writeFailed message => exact .bind (total_update _) fun _ => total_raise _
  | flushFailed message => exact .bind hwrote fun _ => .bind (total_log _) fun _ => total_raise _

theorem total_sendWindowUpdate (id : StreamId) (increment : UInt32) : Total (sendWindowUpdate id increment) :=
  .ite (.pure ()) (.bind (total_writeFrame _) fun _ => total_update _)

theorem total_bufferedFrame : Total bufferedFrame := by
  have htake : ∀ total, Total (takeFrame total) := fun total =>
    total_conn_bind fun c => .bind (total_update _) fun _ => .bind (total_log _) fun _ => total_propagate _
  refine total_conn_bind fun c => .ite (.pure _) (.ite (.bind (total_update _) fun _ => total_raise _) ?_)
  exact .ite (.pure _) (.bind (htake _) fun _ => .pure _)

theorem total_readLoop (incoming : List ReadEvent) : Total (readLoop incoming) := by
  induction incoming with
  | nil => exact total_bufferedFrame
  | cons event rest ih =>
    refine .bind total_bufferedFrame fun frame => ?_
    cases frame with
    | some frame => exact .pure _
    | none =>
      refine .bind (total_update _) fun _ => ?_
      cases event with
      | data chunk => exact .bind (total_update _) fun _ => ih
      | eof => exact .bind (total_update _) fun _ => total_conn_bind fun c => .ite (total_raise _) (total_raise _)
      | wouldBlock => exact .pure _
      | timedOut => exact .pure _
      | interrupted => exact ih
      | failed message => exact .bind (total_update _) fun _ => total_raise _

theorem total_tryReadFrame : Total tryReadFrame := total_conn_bind fun _ => total_readLoop _

/-! ## Handlers -/

theorem total_acceptSettings (settings : List Setting) : Total (acceptSettings settings) := by
  have hsetting : ∀ setting, Total (applyPeerSetting setting) := by
    intro setting
    rw [applyPeerSetting]
    split
    · exact total_update _
    · exact .ite (total_raise _) (.pure ())
    · exact total_update _
    · exact total_conn_bind fun c => .bind (total_update _) fun _ => .ite (total_raise _) (.pure ())
    · exact total_update _
    · exact .pure ()
    · exact .pure ()
  exact .bind (.forEach settings hsetting) fun _ => .bind (total_writeFrame _) fun _ => total_update _

theorem total_handleData (id : StreamId) (endStream : Bool) (flowLength : ℕ) (data : Octets) :
    Total (handleData id endStream flowLength data) := by
  have hcredit : Total (creditData id endStream flowLength) := by
    refine .ite (.bind (total_sendWindowUpdate _ _) fun _ => .bind (total_update _) fun _ => ?_) (.pure ())
    refine .ite (.pure ()) (.bind (total_sendWindowUpdate _ _) fun _ => total_conn_bind fun c => ?_)
    exact .whenSome fun stream => total_update _
  have haccept : Total (acceptData id endStream flowLength data) := by
    refine total_conn_bind fun c => ?_
    split
    · exact total_panic
    · refine .bind (total_update _) fun _ => .ite (total_raise _) (.ite (total_raise _) ?_)
      exact .bind (total_update _) fun _ => hcredit
  refine total_conn_bind fun c => ?_
  split
  · exact total_raise _
  · exact .ite (total_raise _) (.ite (total_raise _) (.bind (total_update _) fun _ => .ite (total_raise _) haccept))

theorem total_checkHeaderBlockSize (size : ℕ) : Total (checkHeaderBlockSize size) :=
  total_conn_bind fun _ => .ite (total_raise _) (.pure ())

theorem total_finishHeaderBlock (id : StreamId) (trailers endStream : Bool) (fragment : Octets) :
    Total (finishHeaderBlock id trailers endStream fragment) := by
  have hdecode : Total (decodeBlock fragment) := by
    refine total_conn_bind fun c => .bind (total_update _) fun _ => ?_
    split
    · exact .pure _
    · exact total_raise _
    · exact total_raise _
  have hstore : ∀ status regular, Total (storeFields id status regular) := by
    intro status regular
    refine total_conn_bind fun c => ?_
    split
    · exact total_panic
    · exact total_update _
  have hend : Total (markRemoteEnd id) := by
    refine total_conn_bind fun c => ?_
    split
    · exact total_raise _
    · exact .ite (total_raise _) (total_update _)
  refine .bind (total_checkHeaderBlockSize _) fun _ => .bind hdecode fun decoded => total_conn_bind fun c => ?_
  refine .bind (total_propagate _) fun fields => ?_
  exact .ite (.ite (total_raise _) (.pure ())) (.bind (hstore _ _) fun _ => .when hend)

theorem total_handleHeaders (id : StreamId) (endStream endHeaders : Bool) (fragment : Octets) :
    Total (handleHeaders id endStream endHeaders fragment) := by
  refine total_conn_bind fun c => ?_
  split
  · exact total_raise _
  · refine .ite (total_raise _) (.ite (total_finishHeaderBlock _ _ _ _) ?_)
    exact .bind (total_checkHeaderBlockSize _) fun _ => total_update _

theorem total_handleContinuation (endHeaders : Bool) (fragment : Octets) :
    Total (handleContinuation endHeaders fragment) := by
  have hextend : Total (extendPending fragment) := by
    refine total_conn_bind fun c => ?_
    split
    · exact total_panic
    · exact total_update _
  have htake : Total takePending := by
    refine total_conn_bind fun c => ?_
    split
    · exact total_panic
    · exact .bind (total_update _) fun _ => .pure _
  refine total_conn_bind fun c => ?_
  split
  · exact total_raise _
  · refine .bind hextend fun _ => .bind (total_checkHeaderBlockSize _) fun _ => .ite ?_ (.pure ())
    exact .bind htake fun pending => total_finishHeaderBlock _ _ _ _

theorem total_handleFrame (frame : Frame) : Total (handleFrame frame) := by
  have hkind : Total (handleKind frame) := by
    rw [handleKind]
    split
    · exact total_handleData _ _ _ _
    · exact .bind (.when (total_update _)) fun _ => total_handleHeaders _ _ _ _
    · exact total_update _
    · rw [handleRstStream]
      refine total_conn_bind fun c => ?_
      split
      · exact total_raise _
      · exact .ite (.pure ()) (.bind (total_update _) fun _ => total_raise _)
    · exact .ite (.pure ()) (total_acceptSettings _)
    · exact total_raise _
    · exact .ite (.pure ()) (total_writeFrame _)
    · exact .bind (total_update _) fun _ => total_raise _
    · rw [handleWindowUpdate]
      refine total_conn_bind fun c => .ite (.bind (total_update _) fun _ => .ite (total_raise _) (.pure ())) ?_
      split
      · exact total_raise _
      · exact .ite (.pure ()) (.bind (total_update _) fun _ => .ite (total_raise _) (.pure ()))
    · exact total_handleContinuation _ _
    · exact total_update _
  exact total_conn_bind fun c => .bind (total_propagate _) fun _ => hkind

theorem total_dispatch (frame : Frame) : Total (dispatch frame) := by
  refine total_conn_bind fun c => .bind (total_log _) fun _ => ?_
  exact .bind (total_attempt (total_handleFrame frame)) fun result => .bind (total_log _) fun _ => .pure _

theorem total_reportError (error : H2Error) : Total (reportError error) := by
  have hclose : ∀ id, Total (closeStream id) := fun id => total_conn_bind fun c => .whenSome fun stream => total_update _
  have hfail : Total (failConnection error) :=
    total_conn_bind fun c => .ite (.pure ()) (.bind (total_ignore (total_writeFrame _)) fun _ => total_update _)
  rw [reportError.eq_def]
  split
  · exact hclose _
  · refine .ite (total_update _) (.ite hfail (.whenSome fun id => ?_))
    exact .bind (total_ignore (total_writeFrame _)) fun _ => hclose id

/-- **A poll returns.** -/
theorem total_pollFrame : Total pollFrame := by
  have hensure : Total ensureOpen := by
    refine total_conn_bind fun c => ?_
    split
    · exact total_raise _
    · exact .ite (total_raise _) (.pure ())
  have herror : ∀ error, Total (pollError error) := by
    intro error
    refine .bind (total_reportError error) fun _ => .ite (total_raise _) ?_
    split
    · exact .bind (total_update _) fun _ => .pure _
    · exact total_raise _
  refine .bind hensure fun _ => .bind total_tryReadFrame fun frame => ?_
  cases frame with
  | none => exact .pure _
  | some frame =>
    refine .bind (total_dispatch frame) fun result => ?_
    cases result with
    | ok _ => exact .pure _
    | error error => exact herror error

end Render.H2
