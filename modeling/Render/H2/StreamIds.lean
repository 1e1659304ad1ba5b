/-
Stream ids are used once (`stream_ids`): along every run of calls, whatever the peer sends, the streams that requests open
have odd ids that grow. No part of a call but `openStream` touches the next id (`sendIds_kept`).
-/
import Render.H2.LateFrames

namespace Render.H2

open Render.Core Render.Core.Comp Run

/-- the next id is odd and from `start` on, and it has not wrapped around -/
structure SendIds (start : ℕ) (s : Session) : Prop where
  start_le : start ≤ s.conn.nextStreamId.toNat
  odd : s.conn.nextStreamId.toNat % 2 = 1
  bound : s.conn.nextStreamId.toNat ≤ 2 ^ 31 + 1

variable {start : ℕ} {s t : Session}

/-- a change that leaves the next id alone -/
theorem SendIds.same (h : SendIds start s) (hsame : t.conn.nextStreamId = s.conn.nextStreamId) : SendIds start t :=
  ⟨hsame ▸ h.start_le, hsame ▸ h.odd, hsame ▸ h.bound⟩

theorem sendIds_update {f : H2Connection → H2Connection} (hf : ∀ c, (f c).nextStreamId = c.nextStreamId) :
    Keeps (SendIds start) (update f) :=
  keeps_update fun s hs => hs.same (hf s.conn)

theorem sendIds_writeFrame (frame : Frame) : Keeps (SendIds start) (writeFrame frame) := by
  intro s r t hs hrun
  cases writeFrame_cases hrun <;> exact hs.same rfl

theorem sendIds_handleFrame (frame : Frame) : Keeps (SendIds start) (handleFrame frame) :=
  Keeps.of_follows (handleFrame_follows frame) fun _ _ hstep hs => by cases hstep <;> exact hs.same rfl

theorem sendIds_acceptSettings (settings : List Setting) : Keeps (SendIds start) (acceptSettings settings) :=
  Keeps.of_follows (show Follows (Step (.settings settings)) _ from acceptSettings_follows rfl) fun _ _ hstep hs => by
    cases hstep <;> exact hs.same rfl

theorem sendIds_closeStream (id : StreamId) : Keeps (SendIds start) (closeStream id) :=
  Keeps.bind keeps_conn fun _ => Keeps.whenSome fun _ _ => sendIds_update fun _ => rfl

theorem sendIds_markLocalEnd (id : StreamId) : Keeps (SendIds start) (markLocalEnd id) := by
  refine Keeps.bind keeps_conn fun c => ?_
  split
  · exact keeps_raise _
  · exact Keeps.ite (fun _ => Keeps.pure ()) fun _ => sendIds_update fun _ => rfl

theorem sendIds_sendData (id : StreamId) (endStream : Bool) (data : Octets) :
    Keeps (SendIds start) (sendData id endStream data) := by
  refine Keeps.bind (sendIds_writeFrame _) fun _ => Keeps.ite (fun _ => keeps_panic) fun _ => ?_
  refine Keeps.bind (sendIds_update fun _ => rfl) fun _ => Keeps.bind keeps_conn fun c => ?_
  exact Keeps.whenSome fun _ _ => sendIds_update fun _ => rfl

theorem sendIds_reportError (error : H2Error) : Keeps (SendIds start) (reportError error) := by
  rw [reportError.eq_def]
  split
  · exact sendIds_closeStream _
  · refine Keeps.ite (fun _ => sendIds_update fun _ => rfl) fun _ => Keeps.ite (fun _ => ?_) fun _ => ?_
    · refine Keeps.bind keeps_conn fun c => Keeps.ite (fun _ => Keeps.pure ()) fun _ => ?_
      exact Keeps.bind (keeps_ignore (sendIds_writeFrame _)) fun _ => sendIds_update fun _ => rfl
    · refine Keeps.whenSome fun id _ => ?_
      exact Keeps.bind (keeps_ignore (sendIds_writeFrame _)) fun _ => sendIds_closeStream id

/-- a request opens the stream of the next id -/
theorem openStream_ids (h : SendIds start s) {request : H2Request} {r : Except Halt (StreamId × Octets)}
    (hrun : openStream request s = some (r, t)) : SendIds start t ∧ ∀ opened, r = .ok opened →
      start ≤ opened.1.get ∧ opened.1.get % 2 = 1 ∧ SendIds (opened.1.get + 1) t := by
  rw [openStream, conn_bind, update_bind, bind_run, allocateStreamId, conn_bind] at hrun
  by_cases hmax : s.conn.nextStreamId > 0x7fffffff
  · rw [if_pos hmax] at hrun
    cases hrun
    exact ⟨h.same rfl, fun _ hopened => by cases hopened⟩
  · rw [if_neg hmax] at hrun
    have hle : s.conn.nextStreamId.toNat ≤ 2 ^ 31 - 1 := Nat.not_lt.1 hmax
    have hid : (StreamId.new s.conn.nextStreamId).get = s.conn.nextStreamId.toNat :=
      (Nat.and_two_pow_sub_one_eq_mod _ 31).trans (Nat.mod_eq_of_lt (by omega))
    have hnext : (s.conn.nextStreamId + 2).toNat = s.conn.nextStreamId.toNat + 2 :=
      (UInt32.toNat_add _ _).trans (Nat.mod_eq_of_lt (by show _ + 2 < 2 ^ 32; omega))
    have hodd := h.odd
    have hsend : ∀ {start' : ℕ} {t' : Session}, t'.conn.nextStreamId = s.conn.nextStreamId + 2 →
        start' ≤ s.conn.nextStreamId.toNat + 1 → SendIds start' t' := by
      intro start' t' ht' hstart'
      refine ⟨?_, ?_, ?_⟩ <;> rw [ht', hnext] <;> omega
    cases hrun
    refine ⟨hsend rfl (h.start_le.trans (Nat.le_succ _)), ?_⟩
    rintro opened ⟨⟩
    exact ⟨hid ▸ h.start_le, hid ▸ hodd, hsend rfl (hid ▸ le_rfl)⟩

theorem sendIds_ends {α : Type} {m : Run α} (h : Keeps (SendIds start) m) :
    Spec (SendIds start) m (Ends (SendIds start) (SendIds start)) := by
  intro s r t hs hrun
  have ht := h s r t hs hrun
  rcases r with halt | a
  · cases halt <;> exact ht
  · exact ht

theorem sendIds_kept (start : ℕ) :
    KeptByCalls (SendIds start) (fun _ => SendIds start) (fun _ => SendIds start) (SendIds start) where
  read := by
    intro s r t hs hrun
    cases tryReadFrame_cases hrun <;> exact hs.same rfl
  dispatch frame := by
    intro s r t hs hrun
    have hs' : SendIds start ⟨s.conn, s.trace ++ [.dispatched s.conn frame]⟩ := hs.same rfl
    rcases dispatch_returns hrun with ⟨result, u, hhandled, rfl, rfl⟩ | ⟨rfl, hhandled⟩
    · have hu := sendIds_handleFrame frame _ _ u hs' hhandled
      cases result <;> exact hu.same rfl
    · exact sendIds_handleFrame frame _ _ t hs' hhandled
  report error := sendIds_ends (sendIds_reportError error)
  weaken _ _ hs := hs
  write frame _ := sendIds_ends (sendIds_writeFrame frame)
  opens request := sendIds_ends fun _ _ _ hs hrun => (openStream_ids hs hrun).1
  sendData id endStream data s r t hs hrun := sendIds_ends (sendIds_sendData id endStream data) s r t hs.1 hrun
  localEnd id := sendIds_ends (sendIds_markLocalEnd id)
  close _ _ hs := hs.same rfl
  forget _ _ hs := hs.same rfl
  take _ _ hs := hs.same rfl
  record _ _ _ hs := hs.same rfl

theorem sendRequest_ids (h : SendIds start s) {request : H2Request} {id : StreamId}
    (hrun : sendRequest request s = some (.ok id, t)) : start ≤ id.get ∧ id.get % 2 = 1 ∧ SendIds (id.get + 1) t := by
  rw [sendRequest] at hrun
  obtain ⟨_, s₁, h₁, hrun⟩ := bind_ok hrun
  have hs₁ : SendIds start s₁ := KeptByPump.ensureOpen (B := SendIds start) _ _ _ h h₁
  obtain ⟨_, s₂, h₂, hrun⟩ := bind_ok hrun
  have hs₂ : SendIds start s₂ := keeps_propagate _ _ _ _ hs₁ h₂
  rw [conn_bind] at hrun
  obtain ⟨_, s₃, h₃, hrun⟩ := bind_ok hrun
  have hs₃ : SendIds start s₃ := keeps_propagate _ _ _ _ hs₂ h₃
  obtain ⟨opened, s₄, h₄, hrun⟩ := bind_ok hrun
  obtain ⟨hstart, hodd, hs₄⟩ := (openStream_ids hs₃ h₄).2 opened rfl
  obtain ⟨_, s₅, h₅, hrun⟩ := bind_ok hrun
  have hs₅ := (sendIds_kept _).sendHeaderBlock _ _ _ _ _ _ hs₄ h₅
  obtain ⟨_, s₆, h₆, hrun⟩ := bind_ok hrun
  cases hrun
  refine ⟨hstart, hodd, ?_⟩
  rw [sendRest] at h₆
  split_ifs at h₆
  · exact (sendIds_kept _).localEnd _ _ _ _ hs₅ h₆
  · exact (sendIds_kept _).sendBody _ _ _ _ _ hs₅ h₆

theorem connect_ids {io : Transport} {config : H2Config} (h : H2.connect ⟨.start io config, []⟩ = some (.ok (), t)) :
    SendIds 1 t := by
  obtain ⟨io', s, u, frame, settings, -, hsettings, hread, -, haccept⟩ := connect_ok h
  have hstart : SendIds 1 ⟨.start io' config, []⟩ := ⟨le_rfl, rfl, by show 1 ≤ 2 ^ 31 + 1; omega⟩
  have hs : SendIds 1 s := by
    refine Keeps.bind keeps_conn (fun c => Keeps.bind (sendIds_writeFrame _) fun _ => ?_) _ _ s hstart hsettings
    refine Keeps.ite (fun _ => ?_) fun _ => Keeps.pure ()
    exact Keeps.bind (sendIds_writeFrame _) fun _ => sendIds_update fun _ => rfl
  refine sendIds_acceptSettings settings u _ t ?_ haccept
  cases hread
  exact hs.same rfl

/-! ## Runs -/

/-- the sessions that calls lead to -/
def Leads : Session → Session → Prop :=
  Relation.ReflTransGen fun s t => ∃ (call : Call) (r : Except Halt Unit), call.run s = some (r, t) ∧ r ≠ .error .panic

theorem SendIds.leads (h : SendIds start s) (hrun : Leads s t) : SendIds start t := by
  induction hrun with
  | refl => exact h
  | tail _ hlast ih =>
    obtain ⟨call, r, hcall, hreturned⟩ := hlast
    have hends := (sendIds_kept start).call call _ _ _ ih hcall
    rcases r with halt | _
    · cases halt with
      | error error => exact hends
      | panic => exact absurd rfl hreturned
    · exact hends

/-- **No stream id is used twice.** Two requests that succeed on one connection, with any calls between them and whatever
frames arrive, open streams with odd ids of 31 bits, the later one with the larger id. -/
theorem stream_ids {s t u v : Session} {request request' : H2Request} {id id' : StreamId} (hs : Reachable s)
    (hfirst : sendRequest request s = some (.ok id, t)) (hbetween : Leads t u)
    (hsecond : sendRequest request' u = some (.ok id', v)) : id.get % 2 = 1 ∧ id'.get % 2 = 1 ∧ id.get < id'.get := by
  have hinv : SendIds 1 s := (sendIds_kept 1).reachable (fun _ _ _ => connect_ids) hs
  obtain ⟨-, hodd, ht⟩ := sendRequest_ids hinv hfirst
  obtain ⟨hlt, hodd', -⟩ := sendRequest_ids (ht.leads hbetween) hsecond
  exact ⟨hodd, hodd', hlt⟩

/-- a request, a frame that is polled for, and another request -/
theorem stream_ids_sample : ∃ id id' : StreamId, id'.get = 3 ∧ id.get < id'.get := by
  obtain ⟨s, hs, hshows⟩ := exists_reachable (peerSends [okResponse]) .default [] (fun s => (do
    let id ← sendRequest sampleRequest
    Call.pollFrame.run
    let id' ← sendRequest sampleRequest
    return (id.get, id'.get) : Run (ℕ × ℕ)) s |>.bind fun p => p.1.toOption) (some (1, 3)) (by decide +kernel)
  obtain ⟨⟨r, v⟩, hrun, hids⟩ := Option.bind_eq_some_iff.1 hshows
  rcases r with halt | ids
  · cases hids
  obtain ⟨id, t, hfirst, hrun⟩ := bind_ok hrun
  obtain ⟨_, u, hpoll, hrun⟩ := bind_ok hrun
  obtain ⟨id', w, hsecond, hrun⟩ := bind_ok hrun
  cases hrun
  obtain ⟨-, hid'⟩ := Prod.mk.inj (Option.some.inj hids)
  exact ⟨id, id', hid', (stream_ids hs hfirst (.single ⟨.pollFrame, _, hpoll, nofun⟩) hsecond).2.2⟩

end Render.H2
