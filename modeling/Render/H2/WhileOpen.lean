/-
What holds as long as a connection is open.

A frame is refused with an error of its stream, after which the connection goes on, or with an error that ends the
connection (`H2Error.Fatal`, `reportError_closes`). A predicate that only has to hold while the connection is open is
therefore kept by all calls when reading keeps it, and when every frame that is not fatal does (`keptWhileOpen`).
-/
import Render.H2.Panic
import Render.H2.Reading

namespace Render.H2

open Render.Core Render.Core.Comp Run

/-! ## Errors of the connection -/

/-- a failure of the whole connection -/
def H2Error.Fatal (error : H2Error) : Prop := error.isConnectionError = true ∨ error.isFinal = true

theorem protocolError_fatal (detail : String) : (protocolError detail).Fatal := .inl rfl

/-! ## Errors of a stream -/

/-- every error of a check is an error of this stream -/
def StreamErrors {α : Type} (id : StreamId) (result : Except H2Error α) : Prop :=
  ∀ error, result = .error error → ∃ code detail, error = .stream id code detail

namespace StreamErrors

variable {id : StreamId} {α β : Type}

theorem ok (a : α) : StreamErrors id (.ok a) := nofun

theorem refuse {p : Prop} [Decidable p] {code : ErrorCode} {detail : Detail} :
    StreamErrors id (refuse p (H2Error.stream id code detail)) := by
  intro error h
  rw [Core.refuse] at h
  split_ifs at h
  exact ⟨code, detail, (Except.error.inj h).symm⟩

theorem bind {x : Except H2Error α} {f : α → Except H2Error β} (hx : StreamErrors id x)
    (hf : ∀ a, StreamErrors id (f a)) : StreamErrors id (x >>= f) := by
  intro error h
  rcases hx' : x with error' | a
  · rw [hx'] at h
    obtain ⟨code, detail, rfl⟩ := hx error' hx'
    exact ⟨code, detail, (Except.error.inj h).symm⟩
  · rw [hx'] at h
    exact hf a error h

theorem mapError {ε : Type} (x : Except ε α) {f : ε → H2Error} (hf : ∀ e, ∃ code detail, f e = .stream id code detail) :
    StreamErrors id (x.mapError f) := by
  intro error h
  cases x with
  | ok a => cases h
  | error e =>
    obtain ⟨code, detail, he⟩ := hf e
    exact ⟨code, detail, (Except.error.inj h).symm.trans he⟩

theorem responseLoop (trailers : Bool) (fields : List HeaderField) :
    ∀ seen, StreamErrors id (responseLoop id trailers seen fields) := by
  induction fields with
  | nil => exact fun seen => ok seen
  | cons field rest ih =>
    intro seen
    refine bind ?_ fun seen => ih seen
    rw [validateResponseField]
    split_ifs
    · refine bind refuse fun _ => bind refuse fun _ => bind refuse fun _ => bind refuse fun _ => bind ?_ fun _ => ok _
      exact bind refuse fun _ => ok _
    · refine bind (mapError _ fun detail => ⟨_, _, rfl⟩) fun _ => bind refuse fun _ => ok _

theorem checkBlock (trailers endStream : Bool) (limit : ℕ) (decoded : List HeaderField) :
    StreamErrors id (checkBlock id trailers endStream limit decoded) :=
  bind refuse fun _ => bind refuse fun _ => bind (responseLoop _ _ _) fun _ => bind refuse fun _ => ok _

end StreamErrors

theorem decodeError_fatal (error : HpackError) : (decodeError error).Fatal := by
  cases error <;> exact .inl rfl

theorem not_fatal_stream (id : StreamId) (code : ErrorCode) (detail : Detail) :
    ¬ (H2Error.stream id code detail).Fatal := by
  simp [H2Error.Fatal, H2Error.isConnectionError, H2Error.isFinal]

theorem checkBlockOrder_fatal {c : H2Connection} {frame : Frame} {error : H2Error}
    (h : checkBlockOrder c frame = .error error) : error.Fatal := by
  rw [checkBlockOrder.eq_def] at h
  split at h
  · rw [refuse] at h
    split_ifs at h
    cases h
    exact protocolError_fatal _
  · cases h
    exact protocolError_fatal _
  · cases h
    exact protocolError_fatal _
  · cases h

/-! ## The end of a connection -/

theorem failConnection_closes (error : H2Error) : Spec (fun _ => True) (failConnection error) fun _ t =>
    t.conn.state = .closed := by
  intro s r t _ hrun
  rw [failConnection, conn_bind] at hrun
  by_cases hclosed : s.conn.state = .closed
  · rw [if_pos hclosed] at hrun
    cases hrun
    exact hclosed
  · rw [if_neg hclosed] at hrun
    rcases bind_returns hrun with ⟨halt, hignore, rfl⟩ | ⟨_, u, -, hrest⟩
    · rcases bind_returns hignore with ⟨halt', hattempt, heq⟩ | ⟨_, v, -, hend⟩
      · rcases attempt_returns hattempt with ⟨_, heq', -⟩ | ⟨-, hpanic⟩
        · cases heq'
        · exact absurd hpanic (NeverPanics.writeFrame _ _ _)
      · cases hend
    · cases hrest
      rfl

/-- **An error of the connection closes it.** -/
theorem reportError_closes {error : H2Error} (hfatal : error.Fatal) : Spec (fun _ => True) (reportError error) fun _ t =>
    t.conn.state = .closed := by
  rw [reportError.eq_def]
  split
  · rcases hfatal with h | h <;> cases h
  · split_ifs with hfinal hconnection
    · exact Spec.modify fun _ _ => rfl
    · exact failConnection_closes _
    · rcases hfatal with h | h
      · exact absurd h hconnection
      · exact absurd h hfinal

/-! ## Open connections -/

/-- a predicate that has to hold as long as the connection is open -/
def WhileOpen (P : Session → Prop) (s : Session) : Prop := s.conn.state = .opened → P s

theorem Ignores.whileOpen {w d : Bool} {P : Session → Prop} (h : Ignores w d P) : Ignores w d (WhileOpen P) := by
  refine ⟨?_, ?_⟩
  · intro s c' hsame hs hopen
    exact h.conn s c' hsame (hs (hsame.opened hopen))
  · intro s event hquiet hs hopen
    exact h.log s event hquiet (hs hopen)

/-- what is left of a predicate after a frame: it holds, or the frame ended the connection -/
def Survives (P : Session → Prop) (r : Except Halt Unit) (t : Session) : Prop :=
  match r with
  | .error (.error error) => error.Fatal ∨ P t
  | _ => P t

theorem Survives.of_holds {P : Session → Prop} {r : Except Halt Unit} {t : Session} (h : P t) : Survives P r t := by
  rcases r with halt | ⟨⟩
  · cases halt with
    | error error => exact .inr h
    | panic => exact h
  · exact h

theorem Survives.mono {P Q : Session → Prop} {r : Except Halt Unit} {t : Session} (h : Survives P r t)
    (hpq : P t → Q t) : Survives Q r t := by
  rcases r with halt | ⟨⟩
  · cases halt with
    | error error => exact h.imp_right hpq
    | panic => exact hpq h
  · exact hpq h

/-- a closed connection stays closed -/
theorem ignores_closed : Ignores true true fun s => s.conn.state ≠ .opened :=
  ⟨fun _ _ hsame hclosed hopen => hclosed (hsame.opened hopen), fun _ _ _ hclosed => hclosed⟩

/-- a predicate on the receiving side that reading keeps, and that a frame keeps unless it ends the connection -/
theorem keptWhileOpen {w d : Bool} {P : Session → Prop} {M : Frame → Session → Prop} (h : Ignores w d P)
    (hreading : ∀ s buffer incoming frames, P s → P ⟨s.conn.reading buffer incoming frames, s.trace⟩)
    (hrefused : ∀ s octets error, P s → Frame.decode octets s.conn.config.maxFrameSize.toNat = .error error →
      P ⟨s.conn, s.trace ++ [.received octets]⟩)
    (hframe : ∀ s octets frame, P s → Frame.decode octets s.conn.config.maxFrameSize.toNat = .ok frame →
      M frame ⟨s.conn, s.trace ++ [.received octets]⟩)
    (hhandle : ∀ frame u, u.conn.state = .opened → M frame u →
      Spec (fun s => s = ⟨u.conn, u.trace ++ [.dispatched u.conn frame]⟩) (handleFrame frame) (Survives P))
    (hhandled : ∀ s before frame result, P s → P ⟨s.conn, s.trace ++ [.handled before frame result]⟩) :
    KeptByCalls (WhileOpen P) (fun frame => WhileOpen (M frame)) (fun error s => error.Fatal ∨ WhileOpen P s)
      fun _ => True := by
  refine h.whileOpen.keptByCalls ?_ ?_ ?_ fun error s hs => .inr hs
  · intro s r t hs hrun
    cases tryReadFrame_cases hrun with
    | timedOut buffer incoming frames => exact fun hopen => hreading _ _ _ _ (hs hopen)
    | frame buffer octets incoming frames frame _ _ _ hdecode =>
      exact fun hopen => hframe _ _ _ (hreading _ buffer incoming frames (hs hopen)) hdecode
    | refused buffer octets incoming frames error _ _ _ hdecode =>
      exact fun hopen => hrefused _ _ _ (hreading _ buffer incoming frames (hs hopen)) hdecode
    | failed => exact fun hopen => by cases hopen
  · intro frame s r t hs hrun
    rcases dispatch_returns hrun with ⟨result, u, hrun', rfl, rfl⟩ | ⟨rfl, -⟩
    · have hu : Survives (WhileOpen P) (result.mapError .error) u := by
        by_cases hopen : s.conn.state = .opened
        · have hP := hhandle frame s hopen (hs hopen) _ _ _ rfl hrun'
          cases result with
          | ok _ => exact fun _ => hP
          | error error => exact hP.imp_right fun hP _ => hP
        · exact .of_holds fun hopen' => absurd hopen' (ignores_closed.mono.handleFrame ⟨s.conn, s.trace ++ _⟩ _ _ hopen hrun')
      cases result with
      | ok _ => exact fun hopen => hhandled _ _ _ _ (hu hopen)
      | error error => exact hu.imp_right fun hP hopen => hhandled _ _ _ _ (hP hopen)
    · trivial
  · intro error s r t hs hrun
    have hends : Ends (WhileOpen P) (fun _ => True) r t := by
      rcases hs with hfatal | hs
      · have hclosed := reportError_closes hfatal s r t trivial hrun
        have hP : WhileOpen P t := fun hopen => by rw [hclosed] at hopen; cases hopen
        exact ends_of_keeps (P := fun _ => WhileOpen P t) (B := fun _ => True) (fun _ _ _ h _ => h) (.reportError error) s r t hP hrun
      · exact ends_of_keeps (h.whileOpen.reportError error) (.reportError error) s r t hs hrun
    exact hends

/-! ## The handshake -/

/-- **Connecting.** After the local settings are written, one frame is read: the settings of the peer. -/
theorem connect_ok {io : Transport} {config : H2Config} {t : Session}
    (h : H2.connect ⟨.start io config, []⟩ = some (.ok (), t)) :
    ∃ io' s u frame settings, config.validate = .ok () ∧ sendLocalSettings ⟨.start io' config, []⟩ = some (.ok (), s) ∧
      TryRead s (.ok (some frame)) u ∧ frame.kind = .settings false settings ∧
      acceptSettings settings u = some (.ok (), t) := by
  rw [connect, conn_bind] at h
  obtain ⟨_, s₁, hvalidate, h⟩ := bind_ok h
  obtain ⟨_, s₂, hpreface, h⟩ := bind_ok h
  obtain ⟨_, s₃, hsettings, h⟩ := bind_ok h
  obtain ⟨value, s₄, hattempt, h⟩ := bind_ok h
  have hvalid : config.validate = .ok () ∧ s₁ = ⟨.start io config, []⟩ := by
    have hsame : (H2Connection.start io config).config = config := rfl
    rw [hsame] at hvalidate
    rcases hresult : config.validate with error | ⟨⟩
    · rw [hresult] at hvalidate
      cases hvalidate
    · rw [hresult] at hvalidate
      cases hvalidate
      exact ⟨rfl, rfl⟩
  obtain ⟨hvalid, rfl⟩ := hvalid
  obtain ⟨io', rfl⟩ : ∃ io', s₂ = ⟨.start io' config, []⟩ := by
    rw [writeConnectionPreface] at hpreface
    obtain ⟨outcome, u, hnext, hrest⟩ := bind_ok hpreface
    have hu : ∃ io', u = ⟨.start io' config, []⟩ := by
      rw [nextOutcome, conn_bind] at hnext
      cases houtcomes : (H2Connection.start io config).io.outcomes with
      | nil =>
        simp only [houtcomes] at hnext
        cases hnext
        exact ⟨io, rfl⟩
      | cons next rest =>
        simp only [houtcomes] at hnext
        cases hnext
        exact ⟨_, rfl⟩
    cases outcome with
    | done =>
      cases hrest
      exact hu
    | writeFailed message => cases hrest
    | flushFailed message => cases hrest
  rcases attempt_returns hattempt with ⟨result, heq, hread⟩ | ⟨heq, -⟩
  · cases heq
    cases value with
    | error error =>
      obtain ⟨_, v, -, hraise⟩ := bind_ok h
      cases hraise
    | ok _ =>
      cases h
      rw [readInitialSettings] at hread
      obtain ⟨frame, u, hnext, hrest⟩ := bind_ok hread
      rw [readNextFrame] at hnext
      obtain ⟨frame', v, htry, hsome⟩ := bind_ok hnext
      cases frame' with
      | none =>
        obtain ⟨_, _, -, hraise⟩ := bind_ok hsome
        cases hraise
      | some frame' =>
        cases hsome
        obtain ⟨settings, hkind, haccept⟩ : ∃ settings, frame.kind = .settings false settings ∧
            acceptSettings settings u = some (.ok (), t) := by
          revert hrest
          cases frame.kind with
          | settings ack settings =>
            cases ack with
            | false => exact fun hrun => ⟨settings, rfl, hrun⟩
            | true => exact fun hrun => by cases hrun
          | _ => exact fun hrun => by cases hrun
        exact ⟨io', s₃, u, frame, settings, hvalid, hsettings, tryReadFrame_cases htry, hkind, haccept⟩
  · cases heq

end Render.H2
