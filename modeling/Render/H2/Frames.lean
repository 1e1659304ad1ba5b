/-
Which side of a connection each step touches.

Most steps only concern what is sent. What is received shows in the read buffer, in the HPACK decoder with the open header
block, and in the receive window of the connection. `Ignores w d P` says that the predicate `P` on sessions sees nothing
else: with `w` it does not see the receive window either, with `d` not the decoder. Every step keeps the predicates that
do not see what it touches (`Ignores.handleFrame` and the lemmas before it).
-/
import Render.H2.Steps

namespace Render.H2

open Render.Core Render.Core.Comp Run

/-! ## What a predicate sees -/

/-- the octets by which a frame opens the connection window of its receiver -/
def Frame.credit (frame : Frame) : ℕ :=
  match frame.kind with
  | .windowUpdate increment => if frame.header.streamId.isConnection then increment.toNat else 0
  | _ => 0

/-- the receiving side of two connections is the same, up to the window (`w`) and the decoder (`d`) -/
structure Same (w d : Bool) (c c' : H2Connection) : Prop where
  config : c'.config = c.config
  readBuffer : c'.readBuffer = c.readBuffer
  incoming : c'.io.incoming = c.io.incoming
  recvWindow : w = false → c'.connRecvWindow = c.connRecvWindow
  decoder : d = false → c'.decoder = c.decoder
  pending : d = false → c'.pendingInbound = c.pendingInbound
  opened : c'.state = .opened → c.state = .opened
  goaway : c'.state = .opened → c'.goaway = c.goaway

/-- an event of the sending side: a frame was written that does not open the connection window (up to `w`) -/
def Event.Quiet (w : Bool) : Event → Prop
  | .sent _ frame => w = true ∨ frame.credit = 0
  | .unflushed _ => True
  | _ => False

/-- a predicate that sees the receiving side only, up to the window and the decoder -/
structure Ignores (w d : Bool) (P : Session → Prop) : Prop where
  conn : ∀ s c', Same w d s.conn c' → P s → P ⟨c', s.trace⟩
  log : ∀ s event, event.Quiet w → P s → P ⟨s.conn, s.trace ++ [event]⟩

namespace Ignores

variable {w d : Bool} {P : Session → Prop}

/-- a predicate that does not see more sees less -/
theorem weaken {w' d' : Bool} (h : Ignores w d P) (hw : w' = true → w = true) (hd : d' = true → d = true) :
    Ignores w' d' P := by
  have hw' : w = false → w' = false := by
    intro hfalse
    cases w' with
    | false => rfl
    | true => exact absurd (hw rfl) (by simp [hfalse])
  have hd' : d = false → d' = false := by
    intro hfalse
    cases d' with
    | false => rfl
    | true => exact absurd (hd rfl) (by simp [hfalse])
  refine ⟨?_, ?_⟩
  · intro s c' hsame
    exact h.conn s c' ⟨hsame.config, hsame.readBuffer, hsame.incoming, fun h => hsame.recvWindow (hw' h),
      fun h => hsame.decoder (hd' h), fun h => hsame.pending (hd' h), hsame.opened, hsame.goaway⟩
  · intro s event hquiet
    refine h.log s event ?_
    cases event with
    | sent before frame => exact hquiet.imp hw id
    | unflushed frame => trivial
    | received octets => cases hquiet
    | dispatched before frame => cases hquiet
    | handled before frame result => cases hquiet

theorem mono (h : Ignores true true P) : Ignores w d P := h.weaken (fun _ => rfl) fun _ => rfl

theorem update (h : Ignores w d P) {f : H2Connection → H2Connection} (hf : ∀ c, Same w d c (f c)) :
    Keeps P (update f) :=
  keeps_update fun s hs => h.conn s _ (hf s.conn) hs

/-- an update that leaves the receiving side and the state of the connection alone -/
theorem side (h : Ignores w d P) {f : H2Connection → H2Connection}
    (hf : ∀ c, (f c).config = c.config ∧ (f c).readBuffer = c.readBuffer ∧ (f c).io.incoming = c.io.incoming ∧
      (f c).connRecvWindow = c.connRecvWindow ∧ (f c).decoder = c.decoder ∧ (f c).pendingInbound = c.pendingInbound ∧
      (f c).state = c.state ∧ (f c).goaway = c.goaway) : Keeps P (Run.update f) := by
  apply h.update
  intro c
  obtain ⟨hconfig, hbuffer, hincoming, hwindow, hdecoder, hpending, hstate, hgoaway⟩ := hf c
  exact ⟨hconfig, hbuffer, hincoming, fun _ => hwindow, fun _ => hdecoder, fun _ => hpending, fun h => hstate ▸ h,
    fun _ => hgoaway⟩

theorem putStream (h : Ignores w d P) (id : StreamId) (stream : Stream) :
    Keeps P (Run.update fun c => c.putStream id stream) :=
  h.side fun _ => ⟨rfl, rfl, rfl, rfl, rfl, rfl, rfl, rfl⟩

theorem close (h : Ignores w d P) : Keeps P (Run.update H2Connection.close) :=
  h.update fun _ => ⟨rfl, rfl, rfl, fun _ => rfl, fun _ => rfl, fun _ => rfl, nofun, nofun⟩

/-! ### Writing -/

theorem nextOutcome (h : Ignores w d P) : Keeps P nextOutcome := by
  rw [H2.nextOutcome]
  refine Keeps.bind keeps_conn ?_
  intro c
  split
  · exact Keeps.pure _
  · refine Keeps.bind (h.side fun _ => ⟨rfl, rfl, rfl, rfl, rfl, rfl, rfl, rfl⟩) ?_
    intro _
    exact Keeps.pure _

theorem writeFrame (h : Ignores w d P) {frame : Frame} (hcredit : w = true ∨ frame.credit = 0) :
    Keeps P (writeFrame frame) := by
  have hwrote : Keeps P (writeFrame.wrote frame) := by
    rw [writeFrame.wrote]
    refine Keeps.bind keeps_conn ?_
    intro c
    refine Keeps.bind (keeps_log fun s hs => h.log s _ hcredit hs) ?_
    intro _
    exact h.side fun _ => ⟨rfl, rfl, rfl, rfl, rfl, rfl, rfl, rfl⟩
  rw [H2.writeFrame]
  refine Keeps.bind (keeps_propagate _) ?_
  intro _
  refine Keeps.bind h.nextOutcome ?_
  intro outcome
  cases outcome with
  | done => exact hwrote
  | writeFailed message => exact Keeps.bind h.close fun _ => keeps_raise _
  | flushFailed message =>
    refine Keeps.bind hwrote ?_
    intro _
    refine Keeps.bind (keeps_log fun s hs => h.log s _ trivial hs) ?_
    intro _
    exact keeps_raise _

theorem sendWindowUpdate (h : Ignores w d P) {id : StreamId} {increment : UInt32}
    (hcredit : w = true ∨ id.isConnection = false) : Keeps P (sendWindowUpdate id increment) := by
  have hframe : w = true ∨ (Frame.windowUpdate id increment).credit = 0 := by
    cases hcredit with
    | inl hw => exact .inl hw
    | inr hid => exact .inr (by simp [Frame.credit, Frame.windowUpdate, hid])
  rw [H2.sendWindowUpdate]
  refine Keeps.ite ?_ ?_
  · intro _
    exact Keeps.pure ()
  · intro _
    refine Keeps.bind (h.writeFrame hframe) ?_
    intro _
    exact h.side fun _ => ⟨rfl, rfl, rfl, rfl, rfl, rfl, rfl, rfl⟩

/-! ### Handlers -/

theorem acceptData (h : Ignores w d P) {id : StreamId} {endStream : Bool} {flowLength : ℕ} {data : Octets}
    (hcredit : Keeps P (creditData id endStream flowLength)) : Keeps P (acceptData id endStream flowLength data) := by
  rw [H2.acceptData]
  refine Keeps.bind keeps_conn ?_
  intro c
  split
  · exact keeps_panic
  · refine Keeps.bind (h.putStream _ _) ?_
    intro _
    refine Keeps.ite (fun _ => keeps_raise _) ?_
    intro _
    refine Keeps.ite (fun _ => keeps_raise _) ?_
    intro _
    exact Keeps.bind (h.putStream _ _) fun _ => hcredit

theorem keepFields (h : Ignores w d P) (id : StreamId) (endStream : Bool) (fields : Option ℕ × List HeaderField) :
    Keeps P (keepFields id endStream fields) := by
  have hstore : ∀ status regular, Keeps P (storeFields id status regular) := by
    intro status regular
    rw [storeFields]
    refine Keeps.bind keeps_conn ?_
    intro c
    split
    · exact keeps_panic
    · exact h.putStream _ _
  have hend : Keeps P (markRemoteEnd id) := by
    rw [markRemoteEnd]
    refine Keeps.bind keeps_conn ?_
    intro c
    split
    · exact keeps_raise _
    · exact Keeps.ite (fun _ => keeps_raise _) fun _ => h.putStream _ _
  rw [H2.keepFields]
  refine Keeps.ite ?_ ?_
  · intro _
    exact Keeps.ite (fun _ => keeps_raise _) fun _ => Keeps.pure ()
  · intro _
    refine Keeps.bind (hstore _ _) ?_
    intro _
    exact Keeps.when hend

/-- each step of the handling of a frame -/
theorem step {frame : Frame} (h : Ignores frame.kind.isData frame.kind.isHeaderBlock P) {s t : Session}
    (hstep : Step frame s t) (hs : P s) : P t := by
  cases hstep with
  | counted outcomes stats =>
    exact h.conn s _ ⟨rfl, rfl, rfl, fun _ => rfl, fun _ => rfl, fun _ => rfl, fun hopen => hopen, fun _ => rfl⟩ hs
  | closed => exact h.conn s _ ⟨rfl, rfl, rfl, fun _ => rfl, fun _ => rfl, fun _ => rfl, nofun, nofun⟩ hs
  | sent reply hreply =>
    refine h.log s _ ?_ hs
    rw [Reply] at hreply
    rw [Event.Quiet, Frame.credit]
    split at hreply
    · rename_i hkind
      rw [hkind]
      exact .inr rfl
    · rename_i hkind
      rw [hkind]
      exact .inr rfl
    · exact .inl hreply
    · cases hreply
  | unflushed reply hreply => exact h.log s _ trivial hs
  | window hdata window =>
    refine h.conn s _ ⟨rfl, rfl, rfl, ?_, fun _ => rfl, fun _ => rfl, fun hopen => hopen, fun _ => rfl⟩ hs
    intro hfalse
    rw [hdata] at hfalse
    cases hfalse
  | decoder hblock decoder =>
    refine h.conn s _ ⟨rfl, rfl, rfl, fun _ => rfl, ?_, fun _ => rfl, fun hopen => hopen, fun _ => rfl⟩ hs
    intro hfalse
    rw [hblock] at hfalse
    cases hfalse
  | pending hblock pending =>
    refine h.conn s _ ⟨rfl, rfl, rfl, fun _ => rfl, fun _ => rfl, ?_, fun hopen => hopen, fun _ => rfl⟩ hs
    intro hfalse
    rw [hblock] at hfalse
    cases hfalse
  | goAway goaway => exact h.conn s _ ⟨rfl, rfl, rfl, fun _ => rfl, fun _ => rfl, fun _ => rfl, nofun, nofun⟩ hs
  | _ => exact h.conn s _ ⟨rfl, rfl, rfl, fun _ => rfl, fun _ => rfl, fun _ => rfl, fun hopen => hopen, fun _ => rfl⟩ hs

/-- **Frames.** A frame only touches the window when it is `DATA`, and the decoder when it is part of a header block. -/
theorem handleFrame {frame : Frame} (h : Ignores frame.kind.isData frame.kind.isHeaderBlock P) :
    Keeps P (handleFrame frame) :=
  Keeps.of_follows (handleFrame_follows frame) fun _ _ => h.step

theorem acceptSettings (h : Ignores w d P) (settings : List Setting) : Keeps P (acceptSettings settings) := by
  have hless : Ignores (Frame.settings settings).kind.isData (Frame.settings settings).kind.isHeaderBlock P :=
    h.weaken (fun hfalse => by cases hfalse) fun hfalse => by cases hfalse
  have hfollows : Follows (Step (.settings settings)) (H2.acceptSettings settings) := acceptSettings_follows rfl
  exact Keeps.of_follows hfollows fun _ _ => hless.step

theorem failConnection (h : Ignores w d P) (error : H2Error) : Keeps P (failConnection error) := by
  rw [H2.failConnection]
  refine Keeps.bind keeps_conn ?_
  intro c
  refine Keeps.ite (fun _ => Keeps.pure ()) ?_
  intro _
  refine Keeps.bind (keeps_ignore (h.writeFrame (.inr rfl))) ?_
  intro _
  exact h.update fun _ => ⟨rfl, rfl, rfl, fun _ => rfl, fun _ => rfl, fun _ => rfl, nofun, nofun⟩

theorem reportError (h : Ignores w d P) (error : H2Error) : Keeps P (reportError error) := by
  have hclose : ∀ id, Keeps P (closeStream id) := by
    intro id
    rw [closeStream]
    refine Keeps.bind keeps_conn ?_
    intro c
    exact Keeps.whenSome fun stream _ => h.putStream _ _
  rw [H2.reportError.eq_def]
  split
  · exact hclose _
  · refine Keeps.ite (fun _ => h.close) ?_
    intro _
    refine Keeps.ite (fun _ => h.failConnection _) ?_
    intro _
    refine Keeps.whenSome ?_
    intro id _
    exact Keeps.bind (keeps_ignore (h.writeFrame (.inr rfl))) fun _ => hclose id

theorem sendLocalSettings (h : Ignores true d P) : Keeps P sendLocalSettings := by
  rw [H2.sendLocalSettings]
  refine Keeps.bind keeps_conn ?_
  intro c
  refine Keeps.bind (h.writeFrame (.inl rfl)) ?_
  intro _
  refine Keeps.ite ?_ fun _ => Keeps.pure ()
  intro _
  refine Keeps.bind (h.writeFrame (.inl rfl)) ?_
  intro _
  exact h.update fun _ => ⟨rfl, rfl, rfl, nofun, fun _ => rfl, fun _ => rfl, fun hopen => hopen, fun _ => rfl⟩

end Ignores

end Render.H2
