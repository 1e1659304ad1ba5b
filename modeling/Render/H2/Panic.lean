/-
When a call on a connection panics: exactly when a `CONTINUATION` completes a valid header block whose stream is gone
(`panics_iff`).

`handle_headers` looks the stream up before the block is decoded, `finish_header_block` relies on it afterwards. Between a
`HEADERS` frame without `END_HEADERS` and the last `CONTINUATION`, a call can remove the stream: `cancel_stream`, or
`take_response` when an error is stored for it (`cancelled_stream_panics`). No other `expect` of the connection fails.
-/
import Render.H2.Calls

namespace Render.H2

open Render.Core Render.Core.Comp Run

/-! ## Header blocks -/

/-- a header block whose fields are stored: it is short enough, decodes, passes the checks and is not informational -/
def H2Connection.Stores (c : H2Connection) (streamId : StreamId) (trailers endStream : Bool) (block : Octets) : Prop :=
  block.length ≤ c.config.maxHeaderBlockSize ∧
    ∃ fields, c.blockFields streamId trailers endStream block = .ok fields ∧ isInformational fields.1 = false

/-- a `CONTINUATION` that ends the open block, whose fields go to a stream that is gone -/
def Stray (c : H2Connection) (frame : Frame) : Prop :=
  ∃ pending fragment, c.pendingInbound = some pending ∧ frame.kind = .continuation true fragment ∧
    frame.header.streamId = pending.streamId ∧ c.streams.lookup pending.streamId = none ∧
    c.Stores pending.streamId pending.trailers pending.endStream (pending.fragments ++ fragment)

/-- does a run panic -/
def Panics {α : Type} (m : Run α) (s : Session) : Prop := ∃ t, m s = some (.error .panic, t)

theorem NeverPanics.not_panics {α : Type} {m : Run α} (h : NeverPanics m) (s : Session) : ¬ Panics m s := by
  intro hpanics
  obtain ⟨t, hrun⟩ := hpanics
  exact h s t hrun

theorem panics_bind_ok {α β : Type} {m : Run α} {f : α → Run β} {s t : Session} {a : α} (h : m s = some (.ok a, t)) :
    Panics (m >>= f) s ↔ Panics (f a) t := by
  rw [Panics, Panics, bind_run_ok h]

theorem not_panics_bind_error {α β : Type} {m : Run α} {f : α → Run β} {s t : Session} {error : H2Error}
    (h : m s = some (.error (.error error), t)) : ¬ Panics (m >>= f) s := by
  rw [Panics, bind_run_error h]
  simp

/-- a panic comes from the first step when nothing after it panics -/
theorem panics_bind {α β : Type} {m : Run α} {f : α → Run β} {s : Session} (hf : ∀ a, NeverPanics (f a)) :
    Panics (m >>= f) s ↔ Panics m s := by
  refine ⟨?_, ?_⟩
  · intro h
    obtain ⟨t, hrun⟩ := h
    rcases bind_returns hrun with ⟨halt, hm, heq⟩ | ⟨a, u, -, hrest⟩
    · cases heq
      exact ⟨t, hm⟩
    · exact absurd hrest (hf a u t)
  · intro h
    obtain ⟨t, hrun⟩ := h
    exact ⟨t, bind_run_error hrun⟩

theorem NeverPanics.markRemoteEnd (id : StreamId) : NeverPanics (markRemoteEnd id) := by
  refine .conn_bind fun c => ?_
  split
  · exact .raise _
  · exact .ite (.raise _) (.update _)

theorem storeFields_panics {id : StreamId} {status : Option ℕ} {regular : List HeaderField} {s : Session} :
    Panics (storeFields id status regular) s ↔ s.conn.streams.lookup id = none := by
  rw [Panics, storeFields]
  cases hlookup : s.conn.streams.lookup id with
  | none => simp [hlookup]
  | some stream => simp [hlookup]

theorem keepFields_panics {id : StreamId} {endStream : Bool} {fields : Option ℕ × List HeaderField} {s : Session} :
    Panics (keepFields id endStream fields) s ↔
      s.conn.streams.lookup id = none ∧ isInformational fields.1 = false := by
  rw [keepFields]
  split_ifs with hinformational hend
  · exact iff_of_false ((NeverPanics.raise _).not_panics s) fun h => by simp [hinformational] at h
  · exact iff_of_false ((NeverPanics.pure ()).not_panics s) fun h => by simp [hinformational] at h
  · rw [panics_bind fun _ => .when (.markRemoteEnd id), storeFields_panics]
    simp [hinformational]

/-- **Completed blocks.** A block panics when its fields are stored in a stream that is not there. -/
theorem finishHeaderBlock_panics {id : StreamId} {trailers endStream : Bool} {block : Octets} {s : Session} :
    Panics (finishHeaderBlock id trailers endStream block) s ↔
      s.conn.streams.lookup id = none ∧ s.conn.Stores id trailers endStream block := by
  rw [Panics, finishHeaderBlock_run, H2Connection.Stores]
  split_ifs with hlarge
  · simp [Nat.not_le.2 hlarge]
  · rw [← Panics]
    rcases hfields : s.conn.blockFields id trailers endStream block with error | fields
    · exact iff_of_false (not_panics_bind_error rfl) (by simp)
    · rw [propagate_ok, pure_bind, keepFields_panics]
      have hstreams : (s.conn.decoded block).streams = s.conn.streams := rfl
      simp [hstreams, Nat.not_lt.1 hlarge]

/-! ## Frames -/

theorem NeverPanics.sendWindowUpdate (id : StreamId) (increment : UInt32) : NeverPanics (sendWindowUpdate id increment) :=
  .ite (.pure ()) (.bind (.writeFrame _) fun _ => .update _)

theorem NeverPanics.creditData (id : StreamId) (endStream : Bool) (flowLength : ℕ) :
    NeverPanics (creditData id endStream flowLength) := by
  refine .ite (.bind (.sendWindowUpdate _ _) fun _ => .bind (.update _) fun _ => .ite (.pure ()) ?_) (.pure ())
  exact .bind (.sendWindowUpdate _ _) fun _ => .conn_bind fun c => .whenSome fun stream => .update _

/-- the stream of a `DATA` frame is looked up twice, with nothing in between that removes it -/
theorem handleData_not_panics (id : StreamId) (endStream : Bool) (flowLength : ℕ) (data : Octets) (s : Session) :
    ¬ Panics (handleData id endStream flowLength data) s := by
  rw [Panics, handleData, conn_bind]
  cases hlookup : s.conn.streams.lookup id with
  | none => simp
  | some stream =>
    have haccept : ¬ Panics (acceptData id endStream flowLength data)
        ⟨{ s.conn with connRecvWindow := s.conn.connRecvWindow - flowLength }, s.trace⟩ := by
      rw [Panics, acceptData, conn_bind]
      simp only [hlookup]
      rw [← Panics]
      refine NeverPanics.not_panics ?_ _
      refine .bind (.update _) fun _ => .ite (.raise _) (.ite (.raise _) ?_)
      exact .bind (.update _) fun _ => .creditData _ _ _
    simp only
    split_ifs
    · simp
    · simp
    · simp
    · rw [update_bind]
      exact haccept

theorem handleHeaders_not_panics (id : StreamId) (endStream endHeaders : Bool) (fragment : Octets) (s : Session) :
    ¬ Panics (handleHeaders id endStream endHeaders fragment) s := by
  rw [Panics, handleHeaders, conn_bind]
  cases hlookup : s.conn.streams.lookup id with
  | none => simp
  | some stream =>
    simp only
    split_ifs
    · simp
    · rw [← Panics, finishHeaderBlock_panics, hlookup]
      simp
    · refine NeverPanics.not_panics (.bind ?_ fun _ => .update _) s
      exact .conn_bind fun c => .ite (.raise _) (.pure ())

theorem handleContinuation_panics {endHeaders : Bool} {fragment : Octets} {s : Session} :
    Panics (handleContinuation endHeaders fragment) s ↔
      ∃ pending, s.conn.pendingInbound = some pending ∧ endHeaders = true ∧
        s.conn.streams.lookup pending.streamId = none ∧
        s.conn.Stores pending.streamId pending.trailers pending.endStream (pending.fragments ++ fragment) := by
  rw [Panics, handleContinuation, conn_bind]
  cases hpending : s.conn.pendingInbound with
  | none => simp
  | some pending =>
    have hextend := @extendPending_run fragment pending s hpending
    simp only [Option.some.injEq, exists_eq_left']
    rw [bind_run_ok hextend, ← Panics]
    by_cases hlarge : pending.fragments.length + fragment.length > s.conn.config.maxHeaderBlockSize
    · have hsize := (checkHeaderBlockSize_run (pending.fragments.length + fragment.length)
        ⟨{ s.conn with
          pendingInbound := some { pending with fragments := pending.fragments ++ fragment } }, s.trace⟩).trans
            (if_pos hlarge)
      refine iff_of_false (not_panics_bind_error hsize) ?_
      intro h
      have hshort := h.2.2.1
      rw [List.length_append] at hshort
      omega
    · have hsize := (checkHeaderBlockSize_run (pending.fragments.length + fragment.length)
        ⟨{ s.conn with
          pendingInbound := some { pending with fragments := pending.fragments ++ fragment } }, s.trace⟩).trans
            (if_neg hlarge)
      rw [panics_bind_ok hsize]
      split_ifs with hend
      · rw [panics_bind_ok (takePending_run rfl), finishHeaderBlock_panics]
        simp [hend, H2Connection.Stores, H2Connection.blockFields]
      · exact iff_of_false ((NeverPanics.pure ()).not_panics _) fun h => hend h.1

theorem NeverPanics.acceptSettings (settings : List Setting) : NeverPanics (acceptSettings settings) := by
  have hsetting : ∀ setting, NeverPanics (applyPeerSetting setting) := by
    intro setting
    rw [applyPeerSetting]
    split
    · exact .update _
    · exact .ite (.raise _) (.pure ())
    · exact .update _
    · exact .conn_bind fun c => .bind (.update _) fun _ => .ite (.raise _) (.pure ())
    · exact .update _
    · exact .pure ()
    · exact .pure ()
  have hsettings : NeverPanics (applyPeerSettings settings) := by
    rw [applyPeerSettings]
    induction settings with
    | nil => exact .pure ()
    | cons setting rest ih => exact .bind (hsetting setting) fun _ => ih
  exact .bind hsettings fun _ => .bind (.writeFrame _) fun _ => .update _

theorem NeverPanics.handleRstStream (id : StreamId) (code : ErrorCode) : NeverPanics (handleRstStream id code) := by
  refine .conn_bind fun c => ?_
  split
  · exact .raise _
  · exact .ite (.pure ()) (.bind (.update _) fun _ => .raise _)

theorem NeverPanics.handleWindowUpdate (id : StreamId) (increment : UInt32) :
    NeverPanics (handleWindowUpdate id increment) := by
  refine .conn_bind fun c => .ite (.bind (.update _) fun _ => .ite (.raise _) (.pure ())) ?_
  split
  · exact .raise _
  · exact .ite (.pure ()) (.bind (.update _) fun _ => .ite (.raise _) (.pure ()))

/-- only header blocks can panic -/
theorem handleKind_panics {frame : Frame} {s : Session} : Panics (handleKind frame) s ↔
    ∃ endHeaders fragment, frame.kind = .continuation endHeaders fragment ∧
      Panics (handleContinuation endHeaders fragment) s := by
  rw [handleKind]
  split
  all_goals rename_i hkind
  · exact iff_of_false (handleData_not_panics _ _ _ _ s) (by simp [hkind])
  · refine iff_of_false ?_ (by simp [hkind])
    rename_i priority _
    cases priority with
    | none => exact handleHeaders_not_panics _ _ _ _ s
    | some priority => exact handleHeaders_not_panics _ _ _ _ _
  · exact iff_of_false ((NeverPanics.update _).not_panics s) (by simp [hkind])
  · exact iff_of_false ((NeverPanics.handleRstStream _ _).not_panics s) (by simp [hkind])
  · exact iff_of_false ((NeverPanics.ite (.pure ()) (.acceptSettings _)).not_panics s) (by simp [hkind])
  · exact iff_of_false ((NeverPanics.raise _).not_panics s) (by simp [hkind])
  · exact iff_of_false ((NeverPanics.ite (.pure ()) (.writeFrame _)).not_panics s) (by simp [hkind])
  · exact iff_of_false ((NeverPanics.bind (.update _) fun _ => .raise _).not_panics s) (by simp [hkind])
  · exact iff_of_false ((NeverPanics.handleWindowUpdate _ _).not_panics s) (by simp [hkind])
  · simp [hkind]
  · exact iff_of_false ((NeverPanics.update _).not_panics s) (by simp [hkind])

/-- **One frame.** -/
theorem handleFrame_panics {frame : Frame} {s : Session} : Panics (handleFrame frame) s ↔ Stray s.conn frame := by
  have hframe : Panics (handleFrame frame) s ↔ checkBlockOrder s.conn frame = .ok () ∧ Panics (handleKind frame) s := by
    rw [Panics, handleFrame, conn_bind]
    rcases checkBlockOrder s.conn frame with error | ⟨⟩
    · exact iff_of_false (not_panics_bind_error rfl) (by simp)
    · simp [Panics]
  rw [hframe, handleKind_panics]
  refine ⟨?_, ?_⟩
  · intro h
    obtain ⟨horder, endHeaders, fragment, hkind, hpanics⟩ := h
    obtain ⟨pending, hpending, rfl, hgone, hstores⟩ := handleContinuation_panics.1 hpanics
    have hsame : frame.header.streamId = pending.streamId := by
      simpa [checkBlockOrder, hpending, hkind, refuse_eq_ok] using horder
    exact ⟨pending, fragment, hpending, hkind, hsame, hgone, hstores⟩
  · intro h
    obtain ⟨pending, fragment, hpending, hkind, hsame, hgone, hstores⟩ := h
    refine ⟨?_, true, fragment, hkind, ?_⟩
    · simp [checkBlockOrder, hpending, hkind, refuse_eq_ok, hsame]
    · exact handleContinuation_panics.2 ⟨pending, hpending, rfl, hgone, hstores⟩

/-! ## Runs -/

/-- a stray frame was dispatched -/
def HasStray (trace : List Event) : Prop := ∃ before frame, Event.dispatched before frame ∈ trace ∧ Stray before frame

theorem hasStray_append {trace added : List Event} (h : HasStray trace) : HasStray (trace ++ added) := by
  obtain ⟨before, frame, hmem, hstray⟩ := h
  exact ⟨before, frame, List.mem_append_left _ hmem, hstray⟩

/-- only a dispatch can add a stray frame -/
theorem hasStray_concat {trace : List Event} {event : Event} (hevent : ∀ before frame, event ≠ .dispatched before frame) :
    HasStray (trace ++ [event]) ↔ HasStray trace := by
  refine ⟨?_, hasStray_append⟩
  intro h
  obtain ⟨before, frame, hmem, hstray⟩ := h
  rcases List.mem_append.1 hmem with hmem | hmem
  · exact ⟨before, frame, hmem, hstray⟩
  · exact absurd (List.mem_singleton.1 hmem).symm (hevent before frame)

theorem hasStray_dispatched {trace : List Event} {before : H2Connection} {frame : Frame} :
    HasStray (trace ++ [.dispatched before frame]) ↔ HasStray trace ∨ Stray before frame := by
  refine ⟨?_, ?_⟩
  · intro h
    obtain ⟨before', frame', hmem, hstray⟩ := h
    rcases List.mem_append.1 hmem with hmem | hmem
    · exact .inl ⟨before', frame', hmem, hstray⟩
    · cases List.mem_singleton.1 hmem
      exact .inr hstray
  · intro h
    rcases h with h | hstray
    · exact hasStray_append h
    · exact ⟨before, frame, by simp, hstray⟩

theorem Event.Quiet.ne_dispatched {w : Bool} {event : Event} (h : event.Quiet w) (before : H2Connection)
    (frame : Frame) : event ≠ .dispatched before frame := by
  rintro rfl
  cases h

theorem ignores_hasStray : Ignores true true fun s => HasStray s.trace :=
  ⟨fun _ _ _ h => h, fun _ _ _ h => hasStray_append h⟩

theorem ignores_noStray : Ignores true true fun s => ¬ HasStray s.trace :=
  ⟨fun _ _ _ h => h, fun _ _ hquiet h => mt (hasStray_concat hquiet.ne_dispatched).1 h⟩

/-- one dispatch: it panics when the frame is stray -/
theorem dispatch_stray (frame : Frame) : Spec (fun s => ¬ HasStray s.trace) (dispatch frame) fun r t =>
    match r with
    | .ok (.ok ()) => ¬ HasStray t.trace
    | .ok (.error _) => ¬ HasStray t.trace
    | .error (.error _) => False
    | .error .panic => HasStray t.trace := by
  intro s r t hs hrun
  rw [dispatch, conn_bind, log_bind] at hrun
  have hpanics := @handleFrame_panics frame ⟨s.conn, s.trace ++ [.dispatched s.conn frame]⟩
  rcases hhandle : handleFrame frame ⟨s.conn, s.trace ++ [.dispatched s.conn frame]⟩ with _ | ⟨r', u⟩
  · rw [bind_run, attempt_run, hhandle] at hrun
    cases hrun
  · have hdone : ∀ result, r' ≠ .error .panic →
        ¬ HasStray (u.trace ++ [.handled s.conn frame result]) := by
      intro result hreturned
      have hcalm : ¬ Stray s.conn frame := by
        intro hstray
        obtain ⟨v, hpanic⟩ := hpanics.2 hstray
        rw [hhandle] at hpanic
        cases hpanic
        exact hreturned rfl
      have hbefore : ¬ HasStray (s.trace ++ [.dispatched s.conn frame]) := by
        rw [hasStray_dispatched]
        simp [hs, hcalm]
      rw [hasStray_concat (by simp)]
      exact (ignores_noStray.mono).handleFrame _ _ _ hbefore hhandle
    rw [bind_run, attempt_run, hhandle] at hrun
    rcases r' with halt | ⟨⟩
    · cases halt with
      | error error =>
        cases hrun
        exact hdone _ (by simp)
      | panic =>
        cases hrun
        have hbefore : HasStray (s.trace ++ [.dispatched s.conn frame]) :=
          hasStray_dispatched.2 (.inr (hpanics.1 ⟨_, hhandle⟩))
        exact (ignores_hasStray.mono).handleFrame _ _ _ hbefore hhandle
    · cases hrun
      exact hdone _ (by simp)

theorem kept_noStray : KeptByCalls (fun s => ¬ HasStray s.trace) (fun _ s => ¬ HasStray s.trace)
    (fun _ s => ¬ HasStray s.trace) fun s => HasStray s.trace := by
  refine ignores_noStray.keptByCalls ?_ dispatch_stray ?_ fun _ _ h => h
  · intro s r t hs hrun
    have ht := keeps_tryReadFrame (P := fun s => ¬ HasStray s.trace) (fun _ _ h => h)
      (fun s octets h => mt (hasStray_concat (by simp)).1 h) s r t hs hrun
    rcases r with halt | frame
    · cases halt with
      | error error => exact ht
      | panic => exact absurd hrun (NeverPanics.tryReadFrame s t)
    · cases frame <;> exact ht
  · intro error
    exact ends_of_keeps (ignores_noStray.reportError error) (.reportError error)

theorem reachable_noStray {s : Session} (hs : Reachable s) : ¬ HasStray s.trace := by
  refine kept_noStray.reachable ?_ hs
  intro io config s hconnect
  refine keeps_connect (P := fun s => ¬ HasStray s.trace) (fun _ _ h => h) ?_ ?_ ?_ _ _ _ ?_ hconnect
  · intro s octets h
    exact mt (hasStray_concat (by simp)).1 h
  · intro s before frame h
    exact mt (hasStray_concat (by simp)).1 h
  · intro s frame h
    exact mt (hasStray_concat (by simp)).1 h
  · intro h
    obtain ⟨before, frame, hmem, -⟩ := h
    cases hmem

/-- **Panics.** A call panics exactly when a stray frame is dispatched in it. -/
theorem panics_iff {s t : Session} {call : Call} {result : Except Halt Unit} (hs : Reachable s)
    (hrun : call.run s = some (result, t)) : result = .error .panic ↔
      ∃ before frame, Event.dispatched before frame ∈ t.trace ∧ Stray before frame := by
  have hends := kept_noStray.call call s result t (reachable_noStray hs) hrun
  rcases result with halt | ⟨⟩
  · cases halt with
    | error error => exact iff_of_false nofun hends
    | panic => exact iff_of_true rfl hends
  · exact iff_of_false nofun hends

/-- the first octets of a response without `END_HEADERS`, and the `CONTINUATION` with `:status 200` -/
def splitResponse : Transport := peerSends [[0, 0, 0, 1, 0, 0, 0, 0, 1], [0, 0, 1, 9, 4, 0, 0, 0, 1, 0x88]]

/-- does a call return, and with a panic -/
def panicked (run : Option (Except Halt Unit × Session)) : Bool :=
  match run with
  | some (.error .panic, _) => true
  | _ => false

theorem exists_of_panicked {run : Option (Except Halt Unit × Session)} (h : panicked run = true) :
    ∃ t, run = some (.error .panic, t) := by
  rw [panicked.eq_def] at h
  split at h
  · exact ⟨_, rfl⟩
  · cases h

/-- a request is cancelled between its `HEADERS` and the `CONTINUATION` -/
theorem cancelled_run : ∃ s, Reachable s ∧ panicked (Call.pollFrame.run s) = true :=
  exists_reachable splitResponse .default [.sendRequest sampleRequest, .pollFrame, .cancelStream firstStream]
    (fun s => panicked (Call.pollFrame.run s)) true (by decide +kernel)

theorem cancelled_stream_panics : ¬ ∀ (s t : Session) (call : Call) (result : Except Halt Unit), Reachable s →
    call.run s = some (result, t) → result ≠ .error .panic := by
  intro hnever
  obtain ⟨s, hs, hpanicked⟩ := cancelled_run
  obtain ⟨t, hrun⟩ := exists_of_panicked hpanicked
  exact hnever s t .pollFrame _ hs hrun rfl

theorem panics_iff_sample : ∃ (t : Session) (before : H2Connection) (frame : Frame), Event.dispatched before frame ∈ t.trace ∧ Stray before frame := by
  obtain ⟨s, hs, hpanicked⟩ := cancelled_run
  obtain ⟨t, hrun⟩ := exists_of_panicked hpanicked
  exact ⟨t, (panics_iff hs hrun).1 rfl⟩

end Render.H2
