/-
How the steps of a connection run: the primitive ones, a write, a dispatch, and the parts of a header block.
-/
import Render.H2.Client

namespace Render.H2

open Render.Core Render.Core.Comp Run

/-! ## Primitive steps -/

@[simp] theorem conn_run (s : Session) : conn s = some (.ok s.conn, s) := rfl

@[simp] theorem update_run (f : H2Connection → H2Connection) (s : Session) :
    update f s = some (.ok (), ⟨f s.conn, s.trace⟩) := rfl

@[simp] theorem log_run (event : Event) (s : Session) : log event s = some (.ok (), ⟨s.conn, s.trace ++ [event]⟩) := rfl

@[simp] theorem raise_run {α : Type} (error : H2Error) (s : Session) :
    (raise error : Run α) s = some (.error (.error error), s) := rfl

@[simp] theorem panic_run {α : Type} (s : Session) : (panic : Run α) s = some (.error .panic, s) := rfl

@[simp] theorem conn_bind {β : Type} (f : H2Connection → Run β) (s : Session) : (conn >>= f) s = f s.conn s := rfl

@[simp] theorem update_bind {β : Type} (g : H2Connection → H2Connection) (f : Unit → Run β) (s : Session) :
    (update g >>= f) s = f () ⟨g s.conn, s.trace⟩ := rfl

@[simp] theorem log_bind {β : Type} (event : Event) (f : Unit → Run β) (s : Session) :
    (log event >>= f) s = f () ⟨s.conn, s.trace ++ [event]⟩ := rfl

@[simp] theorem propagate_ok {α : Type} (a : α) : propagate (.ok a) = pure a := rfl

@[simp] theorem propagate_error {α : Type} (error : H2Error) : (propagate (.error error) : Run α) = raise error := rfl

/-- `attempt` turns an error into a value, and leaves a panic -/
theorem attempt_run {α : Type} (m : Run α) (s : Session) : attempt m s =
    match m s with
    | none => none
    | some (.ok a, t) => some (.ok (.ok a), t)
    | some (.error (.error error), t) => some (.ok (.error error), t)
    | some (.error .panic, t) => some (.error .panic, t) := by
  rw [attempt, recover_run, bind_run]
  rcases m s with _ | ⟨_ | _, t⟩
  · rfl
  · rename_i halt
    cases halt <;> rfl
  · rfl

/-- a run of `attempt` that returns gives the result of its step, or the panic of it -/
theorem attempt_returns {α : Type} {m : Run α} {s t : Session} {r : Except Halt (Except H2Error α)}
    (h : attempt m s = some (r, t)) :
    (∃ result, r = .ok result ∧ m s = some (result.mapError .error, t)) ∨
      (r = .error .panic ∧ m s = some (.error .panic, t)) := by
  rw [attempt_run] at h
  rcases hm : m s with _ | ⟨halt | a, u⟩
  · simp [hm] at h
  · cases halt with
    | error error =>
      simp only [hm, Option.some.injEq, Prod.mk.injEq] at h
      exact .inl ⟨.error error, h.1.symm, by rw [← h.2]; rfl⟩
    | panic =>
      simp only [hm, Option.some.injEq, Prod.mk.injEq] at h
      exact .inr ⟨h.1.symm, by rw [← h.2]⟩
  · simp only [hm, Option.some.injEq, Prod.mk.injEq] at h
    exact .inl ⟨.ok a, h.1.symm, by rw [← h.2]; rfl⟩

/-- a dispatch that returns: the frame was handled, with a result that the trace shows, or panicked -/
theorem dispatch_returns {frame : Frame} {s t : Session} {r : Except Halt (Except H2Error Unit)}
    (h : dispatch frame s = some (r, t)) :
    (∃ result u, handleFrame frame ⟨s.conn, s.trace ++ [.dispatched s.conn frame]⟩ = some (result.mapError .error, u) ∧
        r = .ok result ∧ t = ⟨u.conn, u.trace ++ [.handled s.conn frame result]⟩) ∨
      (r = .error .panic ∧
        handleFrame frame ⟨s.conn, s.trace ++ [.dispatched s.conn frame]⟩ = some (.error .panic, t)) := by
  rw [dispatch, conn_bind, log_bind] at h
  rcases bind_returns h with ⟨halt, hattempt, rfl⟩ | ⟨value, u, hattempt, hrest⟩
  · rcases attempt_returns hattempt with ⟨result, heq, -⟩ | ⟨heq, hrun⟩
    · cases heq
    · cases heq
      exact .inr ⟨rfl, hrun⟩
  · rcases attempt_returns hattempt with ⟨result, heq, hrun⟩ | ⟨heq, -⟩
    · cases heq
      cases hrest
      exact .inl ⟨_, u, hrun, rfl, rfl⟩
    · cases heq

/-- the connection before a frame is written: the outcome of the write is taken -/
def H2Connection.writing (c : H2Connection) (outcomes : List WriteOutcome) : H2Connection :=
  { c with io := { c.io with outcomes } }

/-- the connection after a frame was written -/
def H2Connection.wrote (c : H2Connection) (outcomes : List WriteOutcome) : H2Connection :=
  { c.writing outcomes with stats := { c.stats with framesWritten := c.stats.framesWritten + 1 } }

/-- the ways a write can end -/
inductive Wrote (frame : Frame) (s : Session) : Except Halt Unit → Session → Prop
  | sent (outcomes : List WriteOutcome) : Wrote frame s (.ok ())
      ⟨s.conn.wrote outcomes, s.trace ++ [.sent (s.conn.writing outcomes) frame]⟩
  | refused (error : FrameError) (hencode : frame.encode = .error error) : Wrote frame s (.error (.error (.frame error))) s
  | failed (outcomes : List WriteOutcome) (message : String) : Wrote frame s (.error (.error (.io message)))
      ⟨(s.conn.writing outcomes).close, s.trace⟩
  | unflushed (outcomes : List WriteOutcome) (message : String) : Wrote frame s (.error (.error (.io message)))
      ⟨s.conn.wrote outcomes, s.trace ++ [.sent (s.conn.writing outcomes) frame, .unflushed frame]⟩

theorem writeFrame_cases {frame : Frame} {s t : Session} {r : Except Halt Unit}
    (h : writeFrame frame s = some (r, t)) : Wrote frame s r t := by
  rw [writeFrame] at h
  rcases hencode : frame.encode with error | octets
  · rw [hencode] at h
    cases h
    exact .refused error hencode
  · rw [hencode] at h
    have hnext : ∃ outcome outcomes, nextOutcome s = some (.ok outcome, ⟨s.conn.writing outcomes, s.trace⟩) := by
      rw [nextOutcome, conn_bind]
      cases houtcomes : s.conn.io.outcomes with
      | nil => exact ⟨.done, s.conn.io.outcomes, rfl⟩
      | cons outcome rest => exact ⟨outcome, rest, rfl⟩
    obtain ⟨outcome, outcomes, hnext⟩ := hnext
    have hencoded : propagate ((Except.ok octets : Except FrameError Octets).mapError H2Error.frame) = pure octets := rfl
    rw [hencoded, pure_bind, bind_run_ok hnext] at h
    cases outcome with
    | done =>
      cases h
      exact .sent outcomes
    | writeFailed message =>
      cases h
      exact .failed outcomes message
    | flushFailed message =>
      cases h
      have htrace : (s.trace ++ [Event.sent (s.conn.writing outcomes) frame]) ++ [.unflushed frame] =
          s.trace ++ [.sent (s.conn.writing outcomes) frame, .unflushed frame] := by simp
      have hcase := @Wrote.unflushed frame s outcomes message
      rw [← htrace] at hcase
      exact hcase

section Rules

variable {P : Session → Prop} {α : Type}

theorem keeps_conn : Keeps P conn := Keeps.check _

theorem keeps_update {f : H2Connection → H2Connection} (h : ∀ s, P s → P ⟨f s.conn, s.trace⟩) : Keeps P (update f) :=
  Keeps.modify h

theorem keeps_log {event : Event} (h : ∀ s, P s → P ⟨s.conn, s.trace ++ [event]⟩) : Keeps P (log event) :=
  Keeps.modify h

theorem keeps_raise (error : H2Error) : Keeps P (raise error : Run α) := Keeps.fail _

theorem keeps_panic : Keeps P (panic : Run α) := Keeps.fail _

theorem keeps_propagate (result : Except H2Error α) : Keeps P (propagate result) := by
  cases result with
  | ok a => exact Keeps.pure a
  | error error => exact keeps_raise error

theorem keeps_attempt {m : Run α} (hm : Keeps P m) : Keeps P (attempt m) := by
  refine Keeps.recover ?_ ?_
  · exact Keeps.bind hm fun a => Keeps.pure _
  · intro halt
    cases halt with
    | error error => exact Keeps.pure _
    | panic => exact keeps_panic

theorem keeps_ignore {m : Run Unit} (hm : Keeps P m) : Keeps P (ignore m) :=
  Keeps.bind (keeps_attempt hm) fun _ => Keeps.pure ()

end Rules

/-! ## Header blocks -/

/-- the error of a block that does not decode -/
def decodeError : HpackError → H2Error
  | .headerListTooLarge limit => .headerListTooLarge limit
  | error => .hpack error

/-- the connection after a block was decoded -/
def H2Connection.decoded (c : H2Connection) (block : Octets) : H2Connection :=
  { c with decoder := (c.decoder.decode block).2 }

/-- what the fields of a block are checked to -/
def H2Connection.blockFields (c : H2Connection) (streamId : StreamId) (trailers endStream : Bool) (block : Octets) :
    Except H2Error (Option ℕ × List HeaderField) := do
  let decoded ← (c.decoder.decode block).1.mapError decodeError
  checkBlock streamId trailers endStream c.config.maxHeaderListSize.toNat decoded

theorem checkHeaderBlockSize_run (size : ℕ) (s : Session) : checkHeaderBlockSize size s =
    if size > s.conn.config.maxHeaderBlockSize then
      some (.error (.error (.headerBlockTooLarge s.conn.config.maxHeaderBlockSize)), s)
    else some (.ok (), s) := by
  rw [checkHeaderBlockSize, conn_bind]
  split_ifs <;> rfl

theorem decodeBlock_run (block : Octets) (s : Session) : decodeBlock block s =
    some (((s.conn.decoder.decode block).1.mapError decodeError).mapError .error,
      ⟨s.conn.decoded block, s.trace⟩) := by
  rw [decodeBlock, conn_bind, update_bind]
  rcases (s.conn.decoder.decode block).1 with error | decoded
  · cases error <;> rfl
  · rfl

/-- a block that is short enough is decoded, whatever is done with its fields -/
theorem finishHeaderBlock_run (id : StreamId) (trailers endStream : Bool) (block : Octets) (s : Session) :
    finishHeaderBlock id trailers endStream block s =
      if block.length > s.conn.config.maxHeaderBlockSize then
        some (.error (.error (.headerBlockTooLarge s.conn.config.maxHeaderBlockSize)), s)
      else (propagate (s.conn.blockFields id trailers endStream block) >>= keepFields id endStream)
        ⟨s.conn.decoded block, s.trace⟩ := by
  have hsize := checkHeaderBlockSize_run block.length s
  have hdecode := decodeBlock_run block s
  rw [finishHeaderBlock]
  by_cases hlarge : block.length > s.conn.config.maxHeaderBlockSize
  · rw [if_pos hlarge] at hsize ⊢
    exact bind_run_error hsize
  · rw [if_neg hlarge] at hsize ⊢
    rw [bind_run_ok hsize, H2Connection.blockFields]
    rcases hresult : (s.conn.decoder.decode block).1 with error | decoded
    · rw [hresult] at hdecode
      exact bind_run_error hdecode
    · rw [hresult] at hdecode
      exact bind_run_ok hdecode

/-- the connection with a fragment added to the open block -/
theorem extendPending_run {fragment : Octets} {pending : PendingInboundHeaders} {s : Session}
    (h : s.conn.pendingInbound = some pending) : extendPending fragment s =
      some (.ok (), ⟨{ s.conn with
        pendingInbound := some { pending with fragments := pending.fragments ++ fragment } }, s.trace⟩) := by
  rw [extendPending, conn_bind]
  simp only [h]
  rfl

theorem takePending_run {pending : PendingInboundHeaders} {s : Session} (h : s.conn.pendingInbound = some pending) :
    takePending s = some (.ok pending, ⟨{ s.conn with pendingInbound := none }, s.trace⟩) := by
  rw [takePending, conn_bind]
  simp only [h]
  rfl

end Render.H2
