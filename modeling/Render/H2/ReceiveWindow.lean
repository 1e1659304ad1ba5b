/-
The receive window of a connection, and the window that the peer believes in.

The peer starts with 65535 octets, adds the `WINDOW_UPDATE`s that the client writes for the connection and takes off the
octets of every `DATA` frame it sends. As long as the connection is open both windows agree, and the client has given back
every `DATA` frame on its own (`window_balanced`), on one condition: no `DATA` frame is refused with an error of its stream
(`Fair`). The handlers return such an error before the window is debited, or before it is credited
(`early_data_leaks`).
-/
import Render.H2.LateFrames
import Render.H2.Polling

namespace Render.H2

open Render.Core Render.Core.Comp Run

/-! ## The books -/

/-- the octets that the client has given to the peer for the connection, frame by frame -/
def sentCredits (trace : List Event) : List ℕ :=
  trace.filterMap fun event =>
    match event with
    | .sent _ frame => if frame.credit = 0 then none else some frame.credit
    | _ => none

/-- the flow-controlled lengths of the `DATA` among these frames, empty ones left out -/
def dataLengths (received : List Octets) : List ℕ :=
  received.filterMap fun octets =>
    if FrameType.fromU8 (octets.getD 3 0) = .data ∧ declaredLength octets ≠ 0 then some (declaredLength octets) else none

/-- what the client gives to the peer in the handshake -/
def handshakeCredit (config : H2Config) : List ℕ :=
  if config.initialWindowSize > 65535 then [(config.initialWindowSize - 65535).toNat] else []

/-- the window after these credits and these frames -/
def peerWindow (credits lengths : List ℕ) : ℤ := initialConnectionWindow + credits.sum - lengths.sum

/-- the flow-controlled length of a frame -/
def Frame.flow (frame : Frame) : List ℕ :=
  match frame.kind with
  | .data _ => if frame.header.length = 0 then [] else [frame.header.length]
  | _ => []

/-- a `DATA` frame that is empty, or that its stream accepts if the connection window does -/
def Paid (c : H2Connection) (frame : Frame) : Prop :=
  match frame.kind with
  | .data data => frame.header.length = 0 ∨ ∀ stream, c.streams.lookup frame.header.streamId = some stream →
      stream.endStreamReceived = false ∧ stream.responseStatus.isSome = true ∧
        frame.header.length ≤ stream.recvWindow ∧ stream.body.length + data.length ≤ c.config.maxBodySize
  | _ => True

/-- the codec accepts the `DATA` that is not empty, and its stream accepts it too -/
structure Fair (config : H2Config) (trace : List Event) : Prop where
  accepted : ∀ octets ∈ receivedOctets trace, dataLengths [octets] ≠ [] →
    ∃ frame, Frame.decode octets config.maxFrameSize.toNat = .ok frame
  paid : ∀ before frame, Event.dispatched before frame ∈ trace → Paid before frame

/-- the window of the connection, what was given to the peer and what was taken from it -/
structure Ledger (config : H2Config) (window : ℤ) (credits lengths : List ℕ) (s : Session) : Prop where
  config_eq : s.conn.config = config
  window_eq : s.conn.connRecvWindow = window
  credits_eq : sentCredits s.trace = credits
  lengths_eq : dataLengths (receivedOctets s.trace) = lengths

theorem sentCredits_append (trace added : List Event) : sentCredits (trace ++ added) = sentCredits trace ++ sentCredits added :=
  List.filterMap_append

theorem dataLengths_append (received added : List Octets) :
    dataLengths (received ++ added) = dataLengths received ++ dataLengths added := List.filterMap_append

/-- the length of a frame that decodes -/
theorem dataLengths_decode {octets : Octets} {maxFrameSize : ℕ} {frame : Frame}
    (h : Frame.decode octets maxFrameSize = .ok frame) : dataLengths [octets] = frame.flow := by
  unfold Frame.decode decodeFrame at h
  simp only [bind_eq_ok, pure_eq_ok] at h
  obtain ⟨_, -, _, -, _, -, kind, hkind, rfl⟩ := h
  have htype := (type_of_decodeKind hkind).1
  rw [dataLengths, List.filterMap_cons, htype, Frame.flow]
  cases kind with
  | data data => by_cases hzero : declaredLength octets = 0 <;> simp [FrameKind.wireType, hzero]
  | _ => simp [FrameKind.wireType]

section Ledger

variable {config : H2Config} {window : ℤ} {credits lengths : List ℕ}

theorem ignores_ledger : Ignores false true (Ledger config window credits lengths) := by
  refine ⟨?_, ?_⟩
  · intro s c' hsame hs
    exact ⟨hsame.config.trans hs.config_eq, (hsame.recvWindow rfl).trans hs.window_eq, hs.credits_eq, hs.lengths_eq⟩
  · intro s event hquiet hs
    refine ⟨hs.config_eq, hs.window_eq, ?_, ?_⟩
    · rw [sentCredits_append, hs.credits_eq]
      cases event with
      | sent before frame =>
        have hzero : frame.credit = 0 := by simpa [Event.Quiet] using hquiet
        simp [sentCredits, hzero]
      | unflushed frame => simp [sentCredits]
      | received octets => cases hquiet
      | dispatched before frame => cases hquiet
      | handled before frame result => cases hquiet
    · rw [receivedOctets_concat hquiet.ne_received]
      exact hs.lengths_eq

/-- an increment in range can be written -/
theorem encode_windowUpdate (id : StreamId) {increment : UInt32} (hpositive : 0 < increment.toNat)
    (hrange : increment.toNat < 2 ^ 31) : ∃ octets, (Frame.windowUpdate id increment).encode = .ok octets := by
  have hok : ¬ (increment.toNat = 0 ∨ increment.toNat > 0x7fffffff) := by omega
  refine ⟨_, encode_eq_ok.2 ⟨(.windowUpdate, 0, id, toBe 4 increment.toNat), ?_, ?_, rfl⟩⟩
  · simp only [Frame.encodeParts, Frame.windowUpdate, refuse, if_neg hok]
    rfl
  · simp [maxMaxFrameSize]

/-! ## A frame -/

/-- an empty `DATA` frame moves nothing -/
theorem handleData_empty (id : StreamId) (endStream : Bool) (data : Octets) :
    Keeps (Ledger config window credits lengths) (handleData id endStream 0 data) := by
  have hcredit : Keeps (Ledger config window credits lengths) (creditData id endStream 0) := Keeps.pure ()
  rw [handleData]
  refine Keeps.bind keeps_conn ?_
  intro c
  split
  · exact keeps_raise _
  · refine Keeps.ite (fun _ => keeps_raise _) ?_
    intro _
    refine Keeps.ite (fun _ => keeps_raise _) ?_
    intro _
    refine Keeps.bind ?_ ?_
    · refine keeps_update ?_
      intro s hs
      refine ⟨hs.config_eq, ?_, hs.credits_eq, hs.lengths_eq⟩
      simpa using hs.window_eq
    · intro _
      exact Keeps.ite (fun _ => keeps_raise _) fun _ => ignores_ledger.acceptData hcredit

/-- the window is given back: one `WINDOW_UPDATE` of the connection, or the transport fails -/
theorem creditData_ledger {id : StreamId} {endStream : Bool} {length : ℕ} (hstream : id.isConnection = false)
    (hpositive : 0 < length) (hlength : length < 2 ^ 31) :
    Spec (Ledger config (window - length) credits lengths) (creditData id endStream length)
      (Survives (Ledger config window (credits ++ [length]) lengths)) := by
  have hnat : (UInt32.ofNat length).toNat = length := by
    rw [UInt32.toNat_ofNat', Nat.mod_eq_of_lt (by omega)]
  have hpos : UInt32.ofNat length > 0 := by
    rw [gt_iff_lt, UInt32.lt_iff_toNat_lt, hnat]
    exact hpositive
  have hnonzero : ¬ UInt32.ofNat length = 0 := by
    intro hzero
    rw [hzero] at hnat
    exact absurd hnat.symm (by simp; omega)
  intro s r t hs hrun
  rw [creditData, if_pos hpos, sendWindowUpdate, if_neg hnonzero] at hrun
  rcases bind_returns hrun with ⟨halt, hsend, rfl⟩ | ⟨_, u, hsend, hrest⟩
  · rcases bind_returns hsend with ⟨halt', hwrite, heq⟩ | ⟨_, v, -, hstats⟩
    · cases heq
      cases writeFrame_cases hwrite with
      | refused error hencode =>
        obtain ⟨octets, hok⟩ := @encode_windowUpdate .connection (UInt32.ofNat length) (by omega) (by omega)
        rw [hok] at hencode
        cases hencode
      | failed outcomes message => exact .inl (.inr rfl)
      | unflushed outcomes message => exact .inl (.inr rfl)
    · cases hstats
  · -- the frame is written: the window goes up by what the peer was told
    obtain ⟨_, v, hwrite, hstats⟩ := bind_ok hsend
    cases writeFrame_cases hwrite with
    | sent outcomes =>
      cases hstats
      have hcredit : (Frame.windowUpdate .connection (UInt32.ofNat length)).credit = length := hnat
      have hlater : Keeps (Ledger config window (credits ++ [length]) lengths) (if endStream then pure () else do
          sendWindowUpdate id (UInt32.ofNat length)
          let c ← conn
          whenSome (c.streams.lookup id) fun stream => update fun c => c.putStream id
            { stream with recvWindow := stream.recvWindow + (UInt32.ofNat length).toNat }) := by
        refine Keeps.ite (fun _ => Keeps.pure ()) fun _ => ?_
        refine Keeps.bind (ignores_ledger.sendWindowUpdate (.inr hstream)) ?_
        intro _
        refine Keeps.bind keeps_conn ?_
        intro c
        exact Keeps.whenSome fun stream _ => ignores_ledger.putStream _ _
      rw [update_bind] at hrest
      refine .of_holds (hlater _ _ _ ⟨?_, ?_, ?_, ?_⟩ hrest)
      · exact hs.config_eq
      · have hwindow : s.conn.connRecvWindow + (UInt32.ofNat length).toNat = window := by
          rw [hnat, hs.window_eq]
          ring
        exact hwindow
      · have htrace : sentCredits (s.trace ++ [.sent (s.conn.writing outcomes)
            (.windowUpdate .connection (UInt32.ofNat length))]) = credits ++ [length] := by
          rw [sentCredits_append, hs.credits_eq]
          simp [sentCredits, hcredit, hpositive.ne']
        exact htrace
      · have htrace : dataLengths (receivedOctets (s.trace ++ [.sent (s.conn.writing outcomes)
            (.windowUpdate .connection (UInt32.ofNat length))])) = lengths := by
          rw [receivedOctets_concat (by simp)]
          exact hs.lengths_eq
        exact htrace

/-- a `DATA` frame that its stream accepts is taken off the window, and given back -/
theorem handleData_ledger {id : StreamId} {endStream : Bool} {length : ℕ} {data : Octets} (hstream : id.isConnection = false)
    (hpositive : 0 < length) (hlength : length < 2 ^ 31) {s t : Session} {r : Except Halt Unit}
    (hrun : handleData id endStream length data s = some (r, t))
    (hpaid : ∀ stream, s.conn.streams.lookup id = some stream → stream.endStreamReceived = false ∧
      stream.responseStatus.isSome = true ∧ length ≤ stream.recvWindow ∧
        stream.body.length + data.length ≤ s.conn.config.maxBodySize)
    (hs : Ledger config window credits lengths s) :
    Survives (Ledger config window (credits ++ [length]) lengths) r t := by
  rw [handleData, conn_bind] at hrun
  cases hlookup : s.conn.streams.lookup id with
  | none =>
    simp only [hlookup] at hrun
    cases hrun
    exact .inl (protocolError_fatal _)
  | some stream =>
    obtain ⟨hended, hstatus, hwindow, hbody⟩ := hpaid stream hlookup
    have hnone : stream.responseStatus.isNone = false := by simpa using hstatus
    simp only [hlookup, hended, hnone] at hrun
    rw [if_neg (by simp), if_neg (by simp), update_bind] at hrun
    by_cases hshort : s.conn.connRecvWindow - length < 0
    · rw [if_pos hshort] at hrun
      cases hrun
      exact .inl (.inl rfl)
    · rw [if_neg hshort, acceptData, conn_bind] at hrun
      simp only [hlookup] at hrun
      rw [update_bind, if_neg (by omega), if_neg (by omega), update_bind] at hrun
      refine creditData_ledger hstream hpositive hlength _ _ _ ⟨?_, ?_, ?_, ?_⟩ hrun
      · exact hs.config_eq
      · have hdebited : s.conn.connRecvWindow - length = window - length := by rw [hs.window_eq]
        exact hdebited
      · exact hs.credits_eq
      · exact hs.lengths_eq

end Ledger

/-- between two frames: both windows agree, and every `DATA` frame was given back -/
def Balanced (s : Session) : Prop :=
  Fair s.conn.config s.trace →
    s.conn.connRecvWindow = peerWindow (sentCredits s.trace) (dataLengths (receivedOctets s.trace)) ∧
      sentCredits s.trace = handshakeCredit s.conn.config ++ dataLengths (receivedOctets s.trace)

/-- a frame was received, and is not yet dispatched -/
def Owing (frame : Frame) (s : Session) : Prop :=
  (frame.kind.isData = true → frame.header.streamId.isConnection = false ∧ frame.header.length < 2 ^ 31) ∧
    (Fair s.conn.config s.trace → ∃ lengths, Ledger s.conn.config
      (peerWindow (handshakeCredit s.conn.config ++ lengths) lengths) (handshakeCredit s.conn.config ++ lengths)
      (lengths ++ frame.flow) s)

theorem peerWindow_append (credits lengths added : List ℕ) :
    peerWindow (credits ++ added) (lengths ++ added) = peerWindow credits lengths := by
  simp only [peerWindow, List.sum_append, Nat.cast_add]
  ring

theorem Fair.prefix {config : H2Config} {trace added : List Event} (h : Fair config (trace ++ added)) :
    Fair config trace := by
  refine ⟨?_, ?_⟩
  · intro octets hmem
    exact h.accepted octets (by simp [receivedOctets_append, hmem])
  · intro before frame hmem
    exact h.paid before frame (List.mem_append_left _ hmem)

theorem ignores_unfair : Ignores true true fun s => ¬ Fair s.conn.config s.trace := by
  refine ⟨?_, ?_⟩
  · intro s c' hsame hunfair
    rw [hsame.config]
    exact hunfair
  · intro s event _ hunfair hfair
    exact hunfair hfair.prefix

theorem Ledger.balanced {config : H2Config} {lengths : List ℕ} {s : Session}
    (h : Ledger config (peerWindow (handshakeCredit config ++ lengths) lengths) (handshakeCredit config ++ lengths) lengths
      s) : Balanced s := by
  intro _
  rw [h.window_eq, h.credits_eq, h.lengths_eq, h.config_eq]
  exact ⟨rfl, rfl⟩

theorem ignores_balanced : Ignores false true Balanced := by
  refine ⟨?_, ?_⟩
  · intro s c' hsame hs hfair
    rw [hsame.config] at hfair ⊢
    rw [hsame.recvWindow rfl]
    exact hs hfair
  · intro s event hquiet hs hfair
    obtain ⟨hwindow, hcredits⟩ := hs hfair.prefix
    exact (ignores_ledger.log s event hquiet ⟨rfl, hwindow.trans (by rw [hcredits]), hcredits, rfl⟩).balanced hfair

/-- **One frame.** It leaves the windows in agreement, or the connection ends. -/
theorem handleFrame_balanced (frame : Frame) (u : Session) (hu : Owing frame u) :
    Spec (fun s => s = ⟨u.conn, u.trace ++ [.dispatched u.conn frame]⟩) (handleFrame frame) (Survives Balanced) := by
  rintro s r t rfl hrun
  by_cases hfair : Fair u.conn.config (u.trace ++ [.dispatched u.conn frame])
  · obtain ⟨lengths, hledger⟩ := hu.2 hfair.prefix
    have hs : Ledger u.conn.config (peerWindow (handshakeCredit u.conn.config ++ lengths) lengths)
        (handshakeCredit u.conn.config ++ lengths) (lengths ++ frame.flow)
        ⟨u.conn, u.trace ++ [.dispatched u.conn frame]⟩ := by
      refine ⟨rfl, hledger.window_eq, ?_, ?_⟩
      · rw [sentCredits_append, hledger.credits_eq]
        simp [sentCredits]
      · rw [receivedOctets_concat (by simp)]
        exact hledger.lengths_eq
    have hdone : Survives (Ledger u.conn.config (peerWindow (handshakeCredit u.conn.config ++ lengths) lengths)
        (handshakeCredit u.conn.config ++ lengths ++ frame.flow) (lengths ++ frame.flow)) r t := by
      cases hkind : frame.kind with
      | data data =>
        rcases horder : checkBlockOrder u.conn frame with error | ⟨⟩
        · rw [handleFrame, conn_bind, horder] at hrun
          cases hrun
          exact .inl (checkBlockOrder_fatal horder)
        · obtain ⟨hstream, hlength⟩ := hu.1 (by rw [hkind]; rfl)
          rw [handleFrame, conn_bind, horder, propagate_ok, pure_bind, handleKind, hkind] at hrun
          have hpaid := hfair.paid u.conn frame (by simp)
          rw [Paid, hkind] at hpaid
          by_cases hempty : frame.header.length = 0
          · have hflow : frame.flow = [] := by simp [Frame.flow, hkind, hempty]
            rw [hflow, List.append_nil] at hs ⊢
            rw [hempty] at hrun
            rw [List.append_nil]
            exact .of_holds (handleData_empty _ _ _ _ _ _ hs hrun)
          · have hflow : frame.flow = [frame.header.length] := by simp [Frame.flow, hkind, hempty]
            rw [hflow] at hs ⊢
            exact handleData_ledger hstream (Nat.pos_of_ne_zero hempty) hlength hrun (hpaid.resolve_left hempty) hs
      | _ =>
        have hflow : frame.flow = [] := by simp [Frame.flow, hkind]
        rw [hflow, List.append_nil] at hs ⊢
        rw [List.append_nil]
        exact .of_holds ((ignores_ledger.weaken (by simp [hkind, FrameKind.isData]) fun _ => rfl).handleFrame _ _ _ hs hrun)
    refine hdone.mono ?_
    intro ht
    refine @Ledger.balanced u.conn.config (lengths ++ frame.flow) t ?_
    rw [← List.append_assoc, peerWindow_append]
    exact ht
  · exact .of_holds fun h => absurd h (ignores_unfair.mono.handleFrame _ _ _ hfair hrun)

/-! ## Runs -/

theorem kept_balanced : KeptByCalls (WhileOpen Balanced) (fun frame => WhileOpen (Owing frame))
    (fun error s => error.Fatal ∨ WhileOpen Balanced s) fun _ => True := by
  have hreceived : ∀ (trace : List Event) octets, dataLengths (receivedOctets (trace ++ [.received octets])) =
      dataLengths (receivedOctets trace) ++ dataLengths [octets] := by
    intro trace octets
    rw [receivedOctets_append, dataLengths_append]
    rfl
  have hsent : ∀ (trace : List Event) octets, sentCredits (trace ++ [.received octets]) = sentCredits trace := by
    intro trace octets
    rw [sentCredits_append]
    exact List.append_nil _
  refine keptWhileOpen ignores_balanced ?_ ?_ ?_ (fun frame u _ hu => handleFrame_balanced frame u hu) ?_
  · intro s buffer incoming frames hs
    exact hs
  · intro s octets error hs hdecode hfair
    -- a frame with data was refused: then the run is not fair
    have hnone : dataLengths [octets] = [] := by
      by_contra hlength
      obtain ⟨frame, hframe⟩ := hfair.accepted octets (by simp [receivedOctets]) hlength
      rw [hdecode] at hframe
      cases hframe
    obtain ⟨hwindow, hcredits⟩ := hs hfair.prefix
    rw [hreceived, hsent, hnone, List.append_nil]
    exact ⟨hwindow, hcredits⟩
  · intro s octets frame hs hdecode
    refine ⟨?_, ?_⟩
    · intro hdata
      have haccepted := accepted_of_decode hdecode
      obtain ⟨htype, -, hstream⟩ := type_of_decodeKind haccepted.kind
      have hlength := haccepted.fits24
      rw [← haccepted.length] at hlength
      refine ⟨hstream (.inl ?_), by simp only [maxMaxFrameSize] at hlength; omega⟩
      rw [htype]
      revert hdata
      cases frame.kind <;> simp [FrameKind.isData, FrameKind.wireType]
    · intro hfair
      obtain ⟨hwindow, hcredits⟩ := hs hfair.prefix
      refine ⟨dataLengths (receivedOctets s.trace), rfl, ?_, ?_, ?_⟩
      · rw [← hcredits]
        exact hwindow
      · rw [hsent]
        exact hcredits
      · rw [hreceived, dataLengths_decode hdecode]
  · intro s before frame result hs hfair
    obtain ⟨hwindow, hcredits⟩ := hs hfair.prefix
    have htrace : sentCredits (s.trace ++ [.handled before frame result]) = sentCredits s.trace := by
      rw [sentCredits_append]
      exact List.append_nil _
    rw [receivedOctets_concat (by simp), htrace]
    exact ⟨hwindow, hcredits⟩

/-- the handshake opens the window to its configured size -/
theorem sendLocalSettings_ledger {io : Transport} {config : H2Config} {s : Session}
    (h : sendLocalSettings ⟨.start io config, []⟩ = some (.ok (), s)) :
    Ledger config (peerWindow (handshakeCredit config) []) (handshakeCredit config) [] s := by
  have hstart : Ledger config initialConnectionWindow [] [] ⟨.start io config, []⟩ := ⟨rfl, rfl, rfl, rfl⟩
  rw [sendLocalSettings, conn_bind] at h
  obtain ⟨_, u, hsettings, hrest⟩ := bind_ok h
  have hu := ignores_ledger.writeFrame (.inr rfl) _ _ _ hstart hsettings
  have hsame : (H2Connection.start io config).config = config := rfl
  rw [hsame] at hrest
  rw [handshakeCredit]
  split_ifs at hrest ⊢ with hlarge
  · obtain ⟨_, v, hwrite, hupdate⟩ := bind_ok hrest
    have hmore : config.initialWindowSize.toNat > 65535 := by simpa [UInt32.lt_iff_toNat_lt] using hlarge
    have hsum : (config.initialWindowSize.toNat : ℤ) = 65535 + (config.initialWindowSize - 65535).toNat := by
      rw [UInt32.toNat_sub_of_le _ _ (UInt32.le_of_lt hlarge)]
      have hnat : (65535 : UInt32).toNat = 65535 := by decide
      omega
    have hpositive : (config.initialWindowSize - 65535).toNat ≠ 0 := by omega
    have hcredit : (Frame.windowUpdate .connection (config.initialWindowSize - 65535)).credit =
        (config.initialWindowSize - 65535).toNat := rfl
    generalize config.initialWindowSize - 65535 = increment at *
    cases writeFrame_cases hwrite with
    | sent outcomes =>
      cases hupdate
      refine ⟨hu.config_eq, ?_, ?_, ?_⟩
      · have hwindow : (config.initialWindowSize.toNat : ℤ) = peerWindow [increment.toNat] [] := by
          rw [hsum, peerWindow]
          simp [initialConnectionWindow]
        rw [← hwindow, ← hu.config_eq]
        rfl
      · have htrace : sentCredits (u.trace ++ [.sent (u.conn.writing outcomes) (.windowUpdate .connection increment)]) =
            [increment.toNat] := by
          rw [sentCredits_append, hu.credits_eq]
          simp [sentCredits, hcredit, hpositive]
        exact htrace
      · have htrace : dataLengths (receivedOctets
            (u.trace ++ [.sent (u.conn.writing outcomes) (.windowUpdate .connection increment)])) = [] := by
          rw [receivedOctets_concat (by simp)]
          exact hu.lengths_eq
        exact htrace
  · cases hrest
    simpa [peerWindow] using hu

theorem connect_balanced {io : Transport} {config : H2Config} {t : Session}
    (h : H2.connect ⟨.start io config, []⟩ = some (.ok (), t)) : Balanced t := by
  obtain ⟨io', s, u, frame, settings, -, hsettings, htry, hkind, haccept⟩ := connect_ok h
  have hs := sendLocalSettings_ledger hsettings
  refine ignores_balanced.acceptSettings settings _ _ _ ?_ haccept
  cases htry with
  | frame buffer octets incoming frames _ _ _ _ hdecode =>
    have hnone : dataLengths [octets] = [] := by
      rw [dataLengths_decode hdecode, Frame.flow, hkind]
    refine @Ledger.balanced config [] _ ⟨hs.config_eq, ?_, ?_, ?_⟩
    · rw [List.append_nil]
      exact hs.window_eq
    · rw [sentCredits_append, List.append_nil, hs.credits_eq]
      exact List.append_nil _
    · rw [receivedOctets_append, dataLengths_append, hs.lengths_eq]
      exact hnone

/-- **The window.** In every fair run after which the connection is open, its receive window is the one that the peer
believes in, and the client has given back every `DATA` frame that was not empty by a `WINDOW_UPDATE` of its length. -/
theorem window_balanced {s : Session} (hs : Reachable s) (hopen : s.conn.state = .opened)
    (hfair : Fair s.conn.config s.trace) :
    s.conn.connRecvWindow = peerWindow (sentCredits s.trace) (dataLengths (receivedOctets s.trace)) ∧
      sentCredits s.trace = handshakeCredit s.conn.config ++ dataLengths (receivedOctets s.trace) :=
  kept_balanced.reachable (fun _ _ _ hconnect _ => connect_balanced hconnect) hs hopen hfair

/-- a `DATA` frame that comes before the `HEADERS` of its response is never given back -/
theorem early_data_leaks : ¬ ∀ s, Reachable s → s.conn.state = .opened →
    s.conn.connRecvWindow = peerWindow (sentCredits s.trace) (dataLengths (receivedOctets s.trace)) ∧
      sentCredits s.trace = handshakeCredit s.conn.config ++ dataLengths (receivedOctets s.trace) := by
  intro hbalanced
  obtain ⟨s, hs, hview⟩ := exists_reachable (peerSends [[0, 0, 1, 0, 0, 0, 0, 0, 1, 0x61]]) .default
    [.sendRequest sampleRequest, .pollFrame]
    (fun s => decide (s.conn.state = .opened ∧ dataLengths (receivedOctets s.trace) = [1] ∧ sentCredits s.trace = []))
    true (by decide +kernel)
  obtain ⟨hopen, hlengths, hcredits⟩ := of_decide_eq_true hview
  have hreturned := (hbalanced s hs hopen).2
  rw [hlengths, hcredits] at hreturned
  exact absurd hreturned.symm (by simp)

/-- an event that leaves a run fair -/
def Event.fair (config : H2Config) : Event → Bool
  | .received octets =>
    (dataLengths [octets]).isEmpty || (Frame.decode octets config.maxFrameSize.toNat).toOption.isSome
  | .dispatched before frame =>
    match frame.kind with
    | .data data => frame.header.length == 0 || (before.streams.lookup frame.header.streamId).all fun stream =>
        !stream.endStreamReceived && stream.responseStatus.isSome && decide ((frame.header.length : ℤ) ≤ stream.recvWindow) &&
          decide (stream.body.length + data.length ≤ before.config.maxBodySize)
    | _ => true
  | _ => true

theorem fair_of_all {config : H2Config} {trace : List Event} (h : trace.all (Event.fair config) = true) :
    Fair config trace := by
  rw [List.all_eq_true] at h
  refine ⟨?_, ?_⟩
  · intro octets hmem hlengths
    obtain ⟨event, hevent, hsome⟩ := List.mem_filterMap.1 hmem
    split at hsome
    · cases hsome
      have hfair := h _ hevent
      simp only [Event.fair, Bool.or_eq_true, List.isEmpty_iff, hlengths, false_or] at hfair
      rcases hdecode : Frame.decode octets config.maxFrameSize.toNat with error | frame
      · rw [hdecode] at hfair
        cases hfair
      · exact ⟨frame, rfl⟩
    · cases hsome
  · intro before frame hmem
    have hfair := h _ hmem
    rw [Paid]
    cases hkind : frame.kind with
    | data data =>
      simp only [Event.fair, hkind, Bool.or_eq_true, beq_iff_eq] at hfair
      refine hfair.imp_right ?_
      intro hstream stream hlookup
      rw [hlookup] at hstream
      simpa [and_assoc] using hstream
    | _ => trivial

/-- a response with one octet of data -/
theorem window_balanced_sample : ∃ s : Session, s.conn.connRecvWindow = 65535 ∧
    s.conn.connRecvWindow = peerWindow (sentCredits s.trace) (dataLengths (receivedOctets s.trace)) ∧
    sentCredits s.trace = handshakeCredit s.conn.config ++ dataLengths (receivedOctets s.trace) := by
  obtain ⟨s, hs, hview⟩ := exists_reachable
    (peerSends [[0, 0, 1, 1, 4, 0, 0, 0, 1, 0x88], [0, 0, 1, 0, 1, 0, 0, 0, 1, 0x61]]) .default
    [.sendRequest sampleRequest, .pollFrame, .pollFrame]
    (fun s => decide (s.conn.state = .opened ∧ s.conn.connRecvWindow = 65535) && s.trace.all (Event.fair s.conn.config))
    true (by decide +kernel)
  rw [Bool.and_eq_true, decide_eq_true_eq] at hview
  obtain ⟨⟨hopen, hwindow⟩, hfair⟩ := hview
  exact ⟨s, hwindow, window_balanced hs hopen (fair_of_all hfair)⟩

end Render.H2
