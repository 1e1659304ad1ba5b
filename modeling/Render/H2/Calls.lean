/-
What the calls of a connection keep, from what their parts keep.

`KeptByCalls P M E B` collects what the parts have to satisfy: `P` holds between two steps, `M frame` after `frame` was
read and before it is dispatched, `E error` after it was refused and before the error is reported, and `B` where a panic
stops the call. `KeptByCalls.call` is the result for every call, and `KeptByCalls.reachable` the one for every reachable
session. A predicate that only sees the receiving side needs the first three parts only (`Ignores.keptByCalls`).
`KeptByPump` is what is left for the calls that do not touch the failures that wait for their stream.
-/
import Render.H2.Frames

namespace Render.H2

open Render.Core Render.Core.Comp Run

/-- a call ends in `P`, or panics in `B` -/
def Ends (P B : Session → Prop) {α : Type} (result : Except Halt α) (s : Session) : Prop :=
  match result with
  | .error .panic => B s
  | _ => P s

/-- a call ends with a value in `Q`, with an error in `E`, or panics in `B` -/
def Finishes {α : Type} (Q : α → Session → Prop) (E : H2Error → Session → Prop) (B : Session → Prop)
    (result : Except Halt α) (s : Session) : Prop :=
  match result with
  | .ok a => Q a s
  | .error (.error error) => E error s
  | .error .panic => B s

/-- no run of `m` panics -/
def NeverPanics {α : Type} (m : Run α) : Prop := ∀ s t, m s ≠ some (.error .panic, t)

section Ends

variable {P Q B : Session → Prop} {α β : Type}

theorem Ends.bind {m : Run α} {f : α → Run β} (hm : Spec P m (Ends Q B)) (hf : ∀ a, Spec Q (f a) (Ends Q B)) :
    Spec P (m >>= f) (Ends Q B) := by
  refine Spec.bind hm hf ?_
  intro halt s hs
  cases halt <;> exact hs

/-- a step that keeps `P` and does not panic -/
theorem ends_of_keeps {m : Run α} (hm : Keeps P m) (hpanic : NeverPanics m) :
    Spec P m (Ends P B) := by
  intro s r t hs hrun
  have ht := hm s r t hs hrun
  rcases r with halt | a
  · cases halt with
    | error error => exact ht
    | panic => exact absurd hrun (hpanic s t)
  · exact ht

theorem ends_pure (a : α) : Spec P (pure a : Run α) (Ends P B) := Spec.pure fun _ hs => hs

theorem ends_raise (error : H2Error) : Spec P (raise error : Run α) (Ends P B) := Spec.fail fun _ hs => hs

end Ends

/-! ## Steps that do not panic -/

namespace NeverPanics

variable {α β : Type}

theorem pure (a : α) : NeverPanics (Pure.pure a : Run α) := by
  intro s t hrun
  simp at hrun

theorem raise (error : H2Error) : NeverPanics (Run.raise error : Run α) := by
  intro s t hrun
  simp at hrun

theorem update (f : H2Connection → H2Connection) : NeverPanics (Run.update f) := by
  intro s t hrun
  simp at hrun

theorem log (event : Event) : NeverPanics (Run.log event) := by
  intro s t hrun
  simp at hrun

theorem bind {m : Run α} {f : α → Run β} (hm : NeverPanics m) (hf : ∀ a, NeverPanics (f a)) :
    NeverPanics (m >>= f) := by
  intro s t hrun
  rcases bind_returns hrun with ⟨halt, hm', heq⟩ | ⟨a, u, -, hf'⟩
  · cases halt with
    | error error => cases heq
    | panic => exact hm s t hm'
  · exact hf a u t hf'

theorem conn_bind {f : H2Connection → Run β} (hf : ∀ c, NeverPanics (f c)) : NeverPanics (conn >>= f) := by
  intro s t hrun
  exact hf s.conn s t hrun

theorem ite {c : Prop} [Decidable c] {m n : Run α} (hm : NeverPanics m) (hn : NeverPanics n) :
    NeverPanics (if c then m else n) := by
  split_ifs
  · exact hm
  · exact hn

theorem propagate (result : Except H2Error α) : NeverPanics (Run.propagate result) := by
  cases result with
  | ok a => exact .pure a
  | error error => exact .raise error

theorem attempt {m : Run α} (hm : NeverPanics m) : NeverPanics (Run.attempt m) := by
  intro s t hrun
  rw [attempt_run] at hrun
  rcases hm' : m s with _ | ⟨halt | a, u⟩
  · simp [hm'] at hrun
  · cases halt with
    | error error => simp [hm'] at hrun
    | panic => exact hm s u hm'
  · simp [hm'] at hrun

theorem whenSome {o : Option β} {body : β → Run Unit} (hbody : ∀ b, NeverPanics (body b)) :
    NeverPanics (Comp.whenSome o body) := by
  cases o with
  | none => exact .pure ()
  | some b => exact hbody b

theorem writeFrame (frame : Frame) : NeverPanics (writeFrame frame) := by
  have hwrote : NeverPanics (writeFrame.wrote frame) := conn_bind fun c => bind (.log _) fun _ => .update _
  have houtcome : NeverPanics nextOutcome := by
    refine conn_bind fun c => ?_
    split
    · exact .pure _
    · exact bind (.update _) fun _ => .pure _
  refine bind (.propagate _) fun _ => bind houtcome fun outcome => ?_
  cases outcome with
  | done => exact hwrote
  | writeFailed message => exact bind (.update _) fun _ => .raise _
  | flushFailed message => exact bind hwrote fun _ => bind (.log _) fun _ => .raise _

theorem ignore {m : Run Unit} (hm : NeverPanics m) : NeverPanics (Run.ignore m) := bind (.attempt hm) fun _ => .pure ()

theorem bufferedFrame : NeverPanics bufferedFrame := by
  refine conn_bind fun c => ite (.pure _) (ite (bind (.update _) fun _ => .raise _) (ite (.pure _) ?_))
  refine bind ?_ fun frame => .pure _
  exact conn_bind fun c => bind (.update _) fun _ => bind (.log _) fun _ => .propagate _

theorem readLoop (incoming : List ReadEvent) : NeverPanics (readLoop incoming) := by
  induction incoming with
  | nil => exact bufferedFrame
  | cons event rest ih =>
    refine bind bufferedFrame fun frame => ?_
    cases frame with
    | some frame => exact .pure _
    | none =>
      refine bind (.update _) fun _ => ?_
      cases event with
      | data chunk => exact bind (.update _) fun _ => ih
      | eof => exact bind (.update _) fun _ => conn_bind fun c => ite (.raise _) (.raise _)
      | wouldBlock => exact .pure _
      | timedOut => exact .pure _
      | interrupted => exact ih
      | failed message => exact bind (.update _) fun _ => .raise _

theorem tryReadFrame : NeverPanics tryReadFrame := conn_bind fun _ => readLoop _

theorem closeStream (id : StreamId) : NeverPanics (closeStream id) := conn_bind fun _ => whenSome fun _ => .update _

theorem reportError (error : H2Error) : NeverPanics (reportError error) := by
  have hfail : NeverPanics (failConnection error) :=
    conn_bind fun c => ite (.pure _) (bind (ignore (writeFrame _)) fun _ => .update _)
  rw [H2.reportError.eq_def]
  split
  · exact closeStream _
  · refine ite (.update _) (ite hfail (whenSome fun id => ?_))
    exact bind (ignore (writeFrame _)) fun _ => closeStream id

end NeverPanics

/-! ## The parts of the calls -/

/-- the frames that a call of the client writes, its `DATA` apart -/
def Frame.Requested (frame : Frame) : Prop :=
  match frame.kind with
  | .headers _ _ _ _ => True
  | .continuation _ _ => True
  | .rstStream _ => True
  | .goAway _ _ _ => True
  | _ => False

theorem credit_of_requested {frame : Frame} (h : frame.Requested) : frame.credit = 0 := by
  unfold Frame.Requested at h
  unfold Frame.credit
  split
  · rename_i hkind
    rw [hkind] at h
    cases h
  · rfl

structure KeptByPump (P : Session → Prop) (M : Frame → Session → Prop) (E : H2Error → Session → Prop)
    (B : Session → Prop) : Prop where
  read : Spec P tryReadFrame fun r t =>
    match r with
    | .ok (some frame) => M frame t
    | .error .panic => B t
    | _ => P t
  dispatch : ∀ frame, Spec (M frame) (dispatch frame) fun r t =>
    match r with
    | .ok (.ok ()) => P t
    | .ok (.error error) => E error t
    | .error (.error _) => False
    | .error .panic => B t
  report : ∀ error, Spec (E error) (reportError error) (Ends P B)
  weaken : ∀ error s, P s → E error s
  write : ∀ frame, frame.Requested → Spec P (writeFrame frame) (Ends P B)
  opens : ∀ request, Spec P (openStream request) (Ends P B)
  sendData : ∀ id endStream data,
    Spec (fun s => P s ∧ data.length ≤ s.conn.peer.maxFrameSize.toNat ∧ (data.length : ℤ) ≤ s.conn.available id)
      (sendData id endStream data) (Ends P B)
  localEnd : ∀ id, Spec P (markLocalEnd id) (Ends P B)
  close : ∀ s stats, P s → P ⟨{ s.conn with stats := stats, state := .closed }, s.trace⟩

structure KeptByCalls (P : Session → Prop) (M : Frame → Session → Prop) (E : H2Error → Session → Prop)
    (B : Session → Prop) : Prop extends KeptByPump P M E B where
  forget : ∀ s id, P s →
    P ⟨{ s.conn with streams := s.conn.streams.erase id, streamErrors := s.conn.streamErrors.erase id }, s.trace⟩
  take : ∀ s id, P s → P ⟨{ s.conn with streams := s.conn.streams.erase id }, s.trace⟩
  record : ∀ s id error, P s →
    P ⟨{ s.conn with streamErrors := s.conn.streamErrors.insert id error }, s.trace⟩

theorem spec_attempt {P : Session → Prop} {α : Type} {m : Run α} {R : Except Halt α → Session → Prop} (hm : Spec P m R) :
    Spec P (attempt m) fun r t =>
      match r with
      | .ok (.ok a) => R (.ok a) t
      | .ok (.error error) => R (.error (.error error)) t
      | .error .panic => R (.error .panic) t
      | .error (.error _) => False := by
  intro s r t hs hrun
  rw [attempt_run] at hrun
  rcases hm' : m s with _ | ⟨halt | a, u⟩
  · simp [hm'] at hrun
  · have hu := hm s _ u hs hm'
    cases halt with
    | error error =>
      simp only [hm', Option.some.injEq, Prod.mk.injEq] at hrun
      rw [← hrun.1, ← hrun.2]
      exact hu
    | panic =>
      simp only [hm', Option.some.injEq, Prod.mk.injEq] at hrun
      rw [← hrun.1, ← hrun.2]
      exact hu
  · have hu := hm s _ u hs hm'
    simp only [hm', Option.some.injEq, Prod.mk.injEq] at hrun
    rw [← hrun.1, ← hrun.2]
    exact hu

theorem spec_propagate {P B : Session → Prop} {α : Type} (result : Except H2Error α) :
    Spec P (propagate result) (Ends P B) := by
  cases result with
  | ok a => exact ends_pure a
  | error error => exact ends_raise error

theorem spec_loop {P B : Session → Prop} {α β : Type} {body : β → Run (β ⊕ α)}
    (hbody : ∀ b, Spec P (body b) (Ends P B)) (fuel : ℕ) (b : β) : Spec P (loop body fuel b) (Ends P B) := by
  refine Spec.loop (I := fun _ => P) fuel ?_ b
  intro b s r t hs hrun
  have ht := hbody b s r t hs hrun
  rcases r with halt | next
  · cases halt <;> exact ht
  · cases next <;> exact ht

namespace KeptByPump

variable {P : Session → Prop} {M : Frame → Session → Prop} {E : H2Error → Session → Prop} {B : Session → Prop}

theorem closed (h : KeptByPump P M E B) : Spec P (update H2Connection.close) (Ends P B) :=
  Spec.modify fun s hs => h.close s s.conn.stats hs

theorem pumpOneFrame (h : KeptByPump P M E B) : Spec P pumpOneFrame (Ends P B) := by
  have hnext : Spec P readNextFrame (Finishes M (fun _ => P) B) := by
    refine Spec.bind h.read ?_ ?_
    · intro frame
      cases frame with
      | some frame => exact Spec.pure fun _ hs => hs
      | none =>
        refine Spec.bind h.closed ?_ ?_
        · intro _
          exact Spec.fail fun _ hs => hs
        · intro halt s hs
          cases halt <;> exact hs
    · intro halt s hs
      cases halt <;> exact hs
  have hframe : ∀ frame, Spec (M frame) (H2.dispatch frame >>= propagate) (Finishes (fun _ => P) E B) := by
    intro frame
    refine Spec.bind (h.dispatch frame) ?_ ?_
    · intro result
      cases result with
      | ok _ => exact Spec.pure fun _ hs => hs
      | error error => exact Spec.fail fun _ hs => hs
    · intro halt s hs
      cases halt with
      | error error => exact hs.elim
      | panic => exact hs
  have hbody : Spec P (readNextFrame >>= fun frame => H2.dispatch frame >>= propagate) (Finishes (fun _ => P) E B) := by
    refine Spec.bind hnext hframe ?_
    intro halt s hs
    cases halt with
    | error error => exact h.weaken error s hs
    | panic => exact hs
  refine Spec.bind (spec_attempt hbody) ?_ ?_
  · intro result
    cases result with
    | ok _ => exact ends_pure ()
    | error error => exact Ends.bind (h.report error) fun _ => ends_raise error
  · intro halt s hs
    cases halt with
    | error error => exact hs.elim
    | panic => exact hs

theorem ensureOpen : Spec P ensureOpen (Ends P B) := by
  refine Spec.bind (R := Ends P B) (Spec.check fun _ hs => hs) ?_ fun halt s hs => ?_
  · intro c
    split
    · exact ends_raise _
    · split_ifs
      · exact ends_raise _
      · exact ends_pure ()
  · cases halt <;> exact hs

theorem readResponse (h : KeptByPump P M E B) (id : StreamId) : Spec P (readResponse id) (Ends P B) := by
  have hturn : ∀ u : Unit, Spec P (readResponseTurn id u) (Ends P B) := by
    intro u
    refine Ends.bind (Spec.check fun _ hs => hs) ?_
    intro c
    refine Ends.bind (spec_propagate _) ?_
    intro response
    cases response with
    | some response => exact ends_pure _
    | none => exact Ends.bind h.pumpOneFrame fun _ => ends_pure _
  refine Ends.bind ensureOpen ?_
  intro _
  refine Ends.bind (Spec.check fun _ hs => hs) ?_
  intro c
  split_ifs
  · exact ends_raise _
  · exact spec_loop hturn _ _

theorem closeCall (h : KeptByPump P M E B) : Spec P H2.close (Ends P B) := by
  refine Ends.bind (Spec.check fun _ hs => hs) ?_
  intro c
  split_ifs
  · refine Ends.bind (Q := P) ?_ ?_
    · refine Spec.weaken (spec_attempt (h.write (.goaway c.lastStreamId .noError []) trivial)) (fun _ hs => hs) ?_
      intro r s hs
      rcases r with halt | result
      · cases halt with
        | error error => exact hs.elim
        | panic => exact hs
      · cases result <;> exact hs
    · intro result
      refine Ends.bind (Spec.modify fun s hs => h.close s _ hs) ?_
      intro _
      exact spec_propagate result
  · exact ends_pure ()

/-- the result of `awaitWindow` is what the windows allow where it ends -/
theorem awaitWindow (h : KeptByPump P M E B) (id : StreamId) : Spec P (awaitWindow id) fun r t =>
    match r with
    | .ok available => P t ∧ available = t.conn.available id
    | .error (.error _) => P t
    | .error .panic => B t := by
  refine Spec.bind (R := Ends P B) (Spec.check fun _ hs => hs) ?_ ?_
  · intro c
    refine Spec.loop (I := fun _ => P) _ ?_ _
    intro u s r t hs hrun
    rw [awaitWindowTurn, conn_bind] at hrun
    split_ifs at hrun with hended hopen
    · simp only [raise_run, Option.some.injEq, Prod.mk.injEq] at hrun
      rw [← hrun.1, ← hrun.2]
      exact hs
    · simp only [pure_run, Option.some.injEq, Prod.mk.injEq] at hrun
      rw [← hrun.1, ← hrun.2]
      exact ⟨hs, rfl⟩
    · have hpump : Spec P (H2.pumpOneFrame >>= fun _ => (pure (.inl ()) : Run (Unit ⊕ ℤ))) (Ends P B) :=
        Ends.bind h.pumpOneFrame fun _ => ends_pure _
      have ht := hpump s r t hs hrun
      rcases bind_returns hrun with ⟨halt, -, rfl⟩ | ⟨_, v, -, hend⟩
      · cases halt <;> exact ht
      · simp only [pure_run, Option.some.injEq, Prod.mk.injEq] at hend
        rw [← hend.1] at ht ⊢
        exact ht
  · intro halt s hs
    cases halt <;> exact hs

theorem sendBody (h : KeptByPump P M E B) (id : StreamId) (body : Octets) : Spec P (sendBody id body) (Ends P B) := by
  have hturn : ∀ rest, Spec P (sendBodyTurn id rest) (Ends P B) := by
    intro rest
    rw [sendBodyTurn]
    split_ifs with hempty
    · exact ends_pure _
    · refine Spec.bind (h.awaitWindow id) ?_ ?_
      · intro available s r t hs hrun
        obtain ⟨hP, rfl⟩ := hs
        rw [conn_bind] at hrun
        have hlength : (rest.take (min (min (s.conn.available id).toNat s.conn.peer.maxFrameSize.toNat) rest.length)).length =
            min (min (s.conn.available id).toNat s.conn.peer.maxFrameSize.toNat) rest.length := by
          rw [List.length_take]
          omega
        have hnonneg : 0 ≤ s.conn.available id := le_max_right _ _
        have hsend := h.sendData id
          (decide (min (min (s.conn.available id).toNat s.conn.peer.maxFrameSize.toNat) rest.length = rest.length))
          (rest.take (min (min (s.conn.available id).toNat s.conn.peer.maxFrameSize.toNat) rest.length))
        refine Ends.bind (P := fun s' => s' = s) (Q := P) ?_ ?_ s r t rfl hrun
        · intro s' r' t' hs' hrun'
          rw [hs'] at hrun'
          exact hsend s r' t' ⟨hP, by rw [hlength]; omega, by rw [hlength]; omega⟩ hrun'
        · intro _
          refine Ends.bind (Q := P) ?_ fun _ => ends_pure _
          rw [Comp.when]
          split_ifs
          · exact h.localEnd id
          · exact ends_pure ()
      · intro halt s hs
        cases halt <;> exact hs
  exact spec_loop hturn _ _

theorem sendHeaderBlock (h : KeptByPump P M E B) (id : StreamId) (endStream : Bool) (block : Octets) :
    Spec P (sendHeaderBlock id endStream block) (Ends P B) := by
  have hturn : ∀ max rest, Spec P (sendContinuation id max rest) (Ends P B) := by
    intro max rest
    rw [sendContinuation]
    split_ifs
    · exact ends_pure _
    · exact Ends.bind (h.write _ trivial) fun _ => ends_pure _
  refine Ends.bind (Spec.check fun _ hs => hs) ?_
  intro c
  refine Ends.bind (h.write _ trivial) ?_
  intro _
  exact spec_loop (hturn _) _ _

theorem sendRequest (h : KeptByPump P M E B) (request : H2Request) : Spec P (sendRequest request) (Ends P B) := by
  refine Ends.bind ensureOpen ?_
  intro _
  refine Ends.bind (spec_propagate _) ?_
  intro _
  refine Ends.bind (Spec.check fun _ hs => hs) ?_
  intro c
  refine Ends.bind (spec_propagate _) ?_
  intro _
  refine Ends.bind (h.opens request) ?_
  intro opened
  refine Ends.bind (h.sendHeaderBlock _ _ _) ?_
  intro _
  refine Ends.bind ?_ fun _ => ends_pure _
  rw [sendRest]
  split_ifs
  · exact h.localEnd _
  · exact h.sendBody _ _

end KeptByPump

namespace KeptByCalls

variable {P : Session → Prop} {M : Frame → Session → Prop} {E : H2Error → Session → Prop} {B : Session → Prop}

theorem pollFrame (h : KeptByCalls P M E B) : Spec P pollFrame (Ends P B) := by
  have herror : ∀ error, Spec (E error) (pollError error) (Ends P B) := by
    intro error
    refine Ends.bind (h.report error) ?_
    intro _
    split_ifs
    · exact ends_raise error
    · split
      · rename_i id _
        refine Ends.bind (Spec.modify fun s hs => h.record s id error hs) ?_
        intro _
        exact ends_pure true
      · exact ends_raise error
  refine Ends.bind KeptByPump.ensureOpen ?_
  intro _
  refine Spec.bind h.read ?_ ?_
  · intro frame
    cases frame with
    | none => exact ends_pure false
    | some frame =>
      refine Spec.bind (h.dispatch frame) ?_ ?_
      · intro result
        cases result with
        | ok _ => exact ends_pure true
        | error error => exact herror error
      · intro halt s hs
        cases halt with
        | error error => exact hs.elim
        | panic => exact hs
  · intro halt s hs
    cases halt <;> exact hs

theorem takeResponse (h : KeptByCalls P M E B) (id : StreamId) : Spec P (takeResponse id) (Ends P B) := by
  refine Ends.bind (Spec.check fun _ hs => hs) ?_
  intro c
  split
  · refine Ends.bind (Spec.modify fun s hs => h.forget s id hs) ?_
    intro _
    exact ends_raise _
  · refine Ends.bind (spec_propagate _) ?_
    intro response
    cases response with
    | none => exact ends_pure _
    | some response =>
      refine Ends.bind (Spec.modify fun s hs => h.take s id hs) ?_
      intro _
      exact ends_pure _

theorem cancelStream (h : KeptByCalls P M E B) (id : StreamId) : Spec P (cancelStream id) (Ends P B) := by
  refine Ends.bind (Spec.check fun _ hs => hs) ?_
  intro c
  split
  · exact ends_pure ()
  · refine Ends.bind (Spec.modify fun s hs => h.forget s id hs) ?_
    intro _
    split_ifs
    · exact ends_pure ()
    · exact h.write _ trivial

/-- **Calls.** Every call ends in `P`, or panics in `B`. -/
theorem call (h : KeptByCalls P M E B) (call : Call) : Spec P call.run (Ends P B) := by
  cases call with
  | sendRequest request => exact Ends.bind (h.sendRequest request) fun _ => ends_pure ()
  | readResponse id => exact Ends.bind (h.readResponse id) fun _ => ends_pure ()
  | pollFrame => exact Ends.bind h.pollFrame fun _ => ends_pure ()
  | takeResponse id => exact Ends.bind (h.takeResponse id) fun _ => ends_pure ()
  | cancelStream id => exact h.cancelStream id
  | close => exact h.closeCall

/-- **Runs.** What holds after `connect`, and is kept by the parts of the calls, holds of every reachable session. -/
theorem reachable (h : KeptByCalls P M E B)
    (hconnect : ∀ io config s, H2.connect ⟨.start io config, []⟩ = some (.ok (), s) → P s) {s : Session}
    (hs : Reachable s) : P s := by
  induction hs with
  | connect hrun => exact hconnect _ _ _ hrun
  | call hs hrun hreturned ih =>
    rename_i t call result
    have hends := h.call call _ _ _ ih hrun
    rcases result with halt | _
    · cases halt with
      | error error => exact hends
      | panic => exact absurd rfl hreturned
    · exact hends

end KeptByCalls

/-! ## Predicates on the receiving side -/

theorem NeverPanics.when {c : Prop} [Decidable c] {m : Run Unit} (hm : NeverPanics m) : NeverPanics (when c m) :=
  .ite hm (.pure ())

theorem NeverPanics.debitWindows (id : StreamId) (sent : ℕ) : NeverPanics (debitWindows id sent) :=
  .bind (.update _) fun _ => .conn_bind fun _ => .whenSome fun _ => .update _

theorem NeverPanics.markLocalEnd (id : StreamId) : NeverPanics (markLocalEnd id) := by
  refine .conn_bind fun c => ?_
  split
  · exact .raise _
  · exact .ite (.pure ()) (.update _)

theorem NeverPanics.openStream (request : H2Request) : NeverPanics (openStream request) := by
  refine .conn_bind fun c => .bind (.update _) fun _ => .bind ?_ fun id => .bind (.update _) fun _ => .pure _
  exact .conn_bind fun c => .ite (.raise _) (.bind (.update _) fun _ => .pure _)

/-- a frame is at most as long as the peer allows, which is far below `i64::MAX` -/
theorem length_le_i64Max {s : Session} {data : Octets} (h : data.length ≤ s.conn.peer.maxFrameSize.toNat) :
    ¬ data.length > i64Max := by
  have hlt := s.conn.peer.maxFrameSize.toNat_lt
  simp only [i64Max]
  omega

namespace Ignores

variable {w d : Bool} {P : Session → Prop} {M : Frame → Session → Prop} {E : H2Error → Session → Prop}
  {B : Session → Prop}

theorem openStream (h : Ignores w d P) (request : H2Request) : Keeps P (openStream request) := by
  rw [H2.openStream]
  refine Keeps.bind keeps_conn ?_
  intro c
  refine Keeps.bind (h.side fun _ => ⟨rfl, rfl, rfl, rfl, rfl, rfl, rfl, rfl⟩) ?_
  intro _
  refine Keeps.bind ?_ ?_
  · rw [allocateStreamId]
    refine Keeps.bind keeps_conn ?_
    intro c
    refine Keeps.ite (fun _ => keeps_raise _) ?_
    intro _
    exact Keeps.bind (h.side fun _ => ⟨rfl, rfl, rfl, rfl, rfl, rfl, rfl, rfl⟩) fun _ => Keeps.pure _
  · intro id
    exact Keeps.bind (h.side fun _ => ⟨rfl, rfl, rfl, rfl, rfl, rfl, rfl, rfl⟩) fun _ => Keeps.pure _

theorem debitWindows (h : Ignores w d P) (id : StreamId) (sent : ℕ) : Keeps P (debitWindows id sent) := by
  rw [H2.debitWindows]
  refine Keeps.bind (h.side fun _ => ⟨rfl, rfl, rfl, rfl, rfl, rfl, rfl, rfl⟩) ?_
  intro _
  refine Keeps.bind keeps_conn ?_
  intro c
  exact Keeps.whenSome fun stream _ => h.putStream _ _

theorem markLocalEnd (h : Ignores w d P) (id : StreamId) : Keeps P (markLocalEnd id) := by
  rw [H2.markLocalEnd]
  refine Keeps.bind keeps_conn ?_
  intro c
  split
  · exact keeps_raise _
  · exact Keeps.ite (fun _ => Keeps.pure ()) fun _ => h.putStream _ _

theorem sendData (h : Ignores w d P) (id : StreamId) (endStream : Bool) (data : Octets) :
    Spec (fun s => P s ∧ data.length ≤ s.conn.peer.maxFrameSize.toNat ∧ (data.length : ℤ) ≤ s.conn.available id)
      (sendData id endStream data) (Ends P B) := by
  have hdebit : Keeps P (if data.length > i64Max then panic else H2.debitWindows id data.length) :=
    Keeps.ite (fun _ => keeps_panic) fun _ => h.debitWindows id _
  intro s r t hs hrun
  have hkeeps : Keeps P (H2.sendData id endStream data) := Keeps.bind (h.writeFrame (.inr rfl)) fun _ => hdebit
  have hpanics : NeverPanics (H2.sendData id endStream data) := by
    rw [H2.sendData, if_neg (length_le_i64Max hs.2.1)]
    exact .bind (.writeFrame _) fun _ => .debitWindows _ _
  exact ends_of_keeps hkeeps hpanics s r t hs.1 hrun

/-- a predicate on the receiving side is kept by all calls when it is kept by reading and dispatching -/
theorem keptByCalls (h : Ignores w d P)
    (hread : Spec P tryReadFrame fun r t =>
      match r with
      | .ok (some frame) => M frame t
      | .error .panic => B t
      | _ => P t)
    (hdispatch : ∀ frame, Spec (M frame) (dispatch frame) fun r t =>
      match r with
      | .ok (.ok ()) => P t
      | .ok (.error error) => E error t
      | .error (.error _) => False
      | .error .panic => B t)
    (hreport : ∀ error, Spec (E error) (H2.reportError error) (Ends P B)) (hweaken : ∀ error s, P s → E error s) :
    KeptByCalls P M E B where
  read := hread
  dispatch := hdispatch
  report := hreport
  weaken := hweaken
  write frame hrequested := ends_of_keeps (h.writeFrame (.inr (credit_of_requested hrequested))) (NeverPanics.writeFrame frame)
  opens request := ends_of_keeps (h.openStream request) (NeverPanics.openStream request)
  sendData := h.sendData
  localEnd id := ends_of_keeps (h.markLocalEnd id) (NeverPanics.markLocalEnd id)
  forget s _ hs :=
    h.conn s _ ⟨rfl, rfl, rfl, fun _ => rfl, fun _ => rfl, fun _ => rfl, fun hopen => hopen, fun _ => rfl⟩ hs
  take s _ hs :=
    h.conn s _ ⟨rfl, rfl, rfl, fun _ => rfl, fun _ => rfl, fun _ => rfl, fun hopen => hopen, fun _ => rfl⟩ hs
  record s _ _ hs :=
    h.conn s _ ⟨rfl, rfl, rfl, fun _ => rfl, fun _ => rfl, fun _ => rfl, fun hopen => hopen, fun _ => rfl⟩ hs
  close s _ hs := h.conn s _ ⟨rfl, rfl, rfl, fun _ => rfl, fun _ => rfl, fun _ => rfl, nofun, nofun⟩ hs

end Ignores

/-! ## Predicates on the trace -/

/-- reading a frame keeps what does not see the connection, and does not see that a frame was received -/
theorem keeps_tryReadFrame {P : Session → Prop} (hconn : ∀ s c', P s → P ⟨c', s.trace⟩)
    (hreceived : ∀ s octets, P s → P ⟨s.conn, s.trace ++ [.received octets]⟩) : Keeps P tryReadFrame := by
  have hupdate : ∀ f, Keeps P (update f) := fun f => keeps_update fun s hs => hconn s _ hs
  have hbuffered : Keeps P bufferedFrame := by
    rw [bufferedFrame]
    refine Keeps.bind keeps_conn ?_
    intro c
    refine Keeps.ite (fun _ => Keeps.pure _) ?_
    intro _
    refine Keeps.ite (fun _ => Keeps.bind (hupdate _) fun _ => keeps_raise _) ?_
    intro _
    refine Keeps.ite (fun _ => Keeps.pure _) ?_
    intro _
    refine Keeps.bind ?_ fun _ => Keeps.pure _
    rw [takeFrame]
    refine Keeps.bind keeps_conn ?_
    intro c
    refine Keeps.bind (hupdate _) ?_
    intro _
    refine Keeps.bind (keeps_log fun s hs => hreceived s _ hs) ?_
    intro _
    exact keeps_propagate _
  have hloop : ∀ incoming, Keeps P (readLoop incoming) := by
    intro incoming
    induction incoming with
    | nil => exact hbuffered
    | cons event rest ih =>
      rw [readLoop.eq_def]
      refine Keeps.bind hbuffered ?_
      intro frame
      cases frame with
      | some frame => exact Keeps.pure _
      | none =>
        refine Keeps.bind (hupdate _) ?_
        intro _
        cases event with
        | data chunk => exact Keeps.bind (hupdate _) fun _ => ih
        | eof =>
          refine Keeps.bind (hupdate _) ?_
          intro _
          refine Keeps.bind keeps_conn ?_
          intro c
          exact Keeps.ite (fun _ => keeps_raise _) fun _ => keeps_raise _
        | wouldBlock => exact Keeps.pure _
        | timedOut => exact Keeps.pure _
        | interrupted => exact ih
        | failed message => exact Keeps.bind (hupdate _) fun _ => keeps_raise _
  rw [tryReadFrame]
  exact Keeps.bind keeps_conn fun c => hloop _

/-- the handshake keeps what sees no more than that -/
theorem keeps_connect {P : Session → Prop} (hconn : ∀ s c', P s → P ⟨c', s.trace⟩)
    (hreceived : ∀ s octets, P s → P ⟨s.conn, s.trace ++ [.received octets]⟩)
    (hsent : ∀ s before frame, P s → P ⟨s.conn, s.trace ++ [.sent before frame]⟩)
    (hunflushed : ∀ s frame, P s → P ⟨s.conn, s.trace ++ [.unflushed frame]⟩) : Keeps P H2.connect := by
  have hupdate : ∀ f, Keeps P (update f) := fun f => keeps_update fun s hs => hconn s _ hs
  have hignores : Ignores true true P := by
    refine ⟨fun s c' _ hs => hconn s c' hs, ?_⟩
    intro s event hquiet hs
    cases event with
    | received octets => exact hreceived s octets hs
    | dispatched before frame => cases hquiet
    | handled before frame result => cases hquiet
    | sent before frame => exact hsent s before frame hs
    | unflushed frame => exact hunflushed s frame hs
  have hread : Keeps P readInitialSettings := by
    rw [readInitialSettings]
    refine Keeps.bind ?_ ?_
    · rw [readNextFrame]
      refine Keeps.bind (keeps_tryReadFrame hconn hreceived) ?_
      intro frame
      cases frame with
      | some frame => exact Keeps.pure _
      | none => exact Keeps.bind (hupdate _) fun _ => keeps_raise _
    · intro frame
      split
      · exact hignores.acceptSettings _
      · exact keeps_raise _
      · exact keeps_raise _
  have hpreface : Keeps P writeConnectionPreface := by
    rw [writeConnectionPreface]
    refine Keeps.bind hignores.nextOutcome ?_
    intro outcome
    cases outcome with
    | done => exact Keeps.pure ()
    | writeFailed message => exact keeps_raise _
    | flushFailed message => exact keeps_raise _
  rw [H2.connect]
  refine Keeps.bind keeps_conn ?_
  intro c
  refine Keeps.bind (keeps_propagate _) ?_
  intro _
  refine Keeps.bind hpreface ?_
  intro _
  refine Keeps.bind hignores.sendLocalSettings ?_
  intro _
  refine Keeps.bind (keeps_attempt hread) ?_
  intro result
  cases result with
  | ok _ => exact Keeps.pure ()
  | error error => exact Keeps.bind (Keeps.when (hignores.failConnection error)) fun _ => keeps_raise _

/-! ## Sessions of a script -/

/-- `connect`, and calls that return `Ok` one after the other -/
def script (calls : List Call) : Run Unit := do
  connect
  forEach Call.run calls

theorem reachable_forEach {calls : List Call} {t : Session} :
    ∀ {s : Session}, Reachable s → forEach Call.run calls s = some (.ok (), t) → Reachable t := by
  induction calls with
  | nil =>
    intro s hs hrun
    cases hrun
    exact hs
  | cons call rest ih =>
    intro s hs hrun
    obtain ⟨_, u, hcall, hrest⟩ := bind_ok hrun
    exact ih (.call hs hcall nofun) hrest

/-- a script that runs reaches a session -/
theorem reachable_script {io : Transport} {config : H2Config} {calls : List Call} {t : Session}
    (hrun : script calls ⟨.start io config, []⟩ = some (.ok (), t)) : Reachable t := by
  obtain ⟨_, s, hconnect, hrest⟩ := bind_ok hrun
  exact reachable_forEach (.connect hconnect) hrest

/-- what a script shows of the session it reaches -/
theorem exists_reachable {α : Type} (io : Transport) (config : H2Config) (calls : List Call) (f : Session → α) (a : α)
    (hrun : (script calls ⟨.start io config, []⟩).map (fun p => (p.1.toOption, f p.2)) = some (some (), a)) :
    ∃ s, Reachable s ∧ f s = a := by
  obtain ⟨⟨result, s⟩, hscript, hview⟩ := Option.map_eq_some_iff.1 hrun
  obtain ⟨hresult, hf⟩ := Prod.mk.inj hview
  rcases result with halt | ⟨⟩
  · cases hresult
  · exact ⟨s, reachable_script hscript, hf⟩

/-- octets that arrive in one read -/
def arrives (octets : Octets) : ReadEvent :=
  if h : octets ≠ [] ∧ octets.length ≤ 16 * 1024 then .data ⟨octets, h⟩ else .wouldBlock

/-- a transport on which the peer sends empty settings, and then these octets, one read each -/
def peerSends (octets : List Octets) : Transport := ⟨([0, 0, 0, 4, 0, 0, 0, 0, 0] :: octets).map arrives, []⟩

/-- `GET http://a/` -/
def sampleRequest : H2Request := ⟨ascii "GET", ascii "http", ascii "a", ascii "/", [], none⟩

theorem one_lt_streams : 1 < 2 ^ 31 := by norm_num

/-- the first stream of a connection -/
def firstStream : StreamId := ⟨1, one_lt_streams⟩

end Render.H2

/-! Runs of calls on a connection, with how each call ended.

A `History` is what a client has seen of a connection: the calls since `connect`, one `Turn` for each, with the sessions
around it and what it returned. The sessions that histories lead to are those that are `Reachable`. -/

namespace Render.H2

open Render.Core Render.Core.Comp Run

namespace History

variable {past earlier later : List Turn} {turn next : Turn} {s : Session}

end History

end Render.H2
