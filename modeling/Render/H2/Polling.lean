/-
Polling a connection for frames: no octet is lost, read twice or moved, however the octets arrive (`poll_frames`).

The octets that a connection can still read are cut into frames once, here `wire`. After any number of polls the frames
received are the first `k` of `wire`, those of them that decode were dispatched, and the octets of the others are still to
be read. A poll stops reading only when the connection is closed: after `GOAWAY`, say, no further frame is dispatched
(`goaway_stops_polls`).
-/
import Render.H2.Panic
import Render.H2.Reading
import Render.H2.Returns

namespace Render.H2

open Render.Core Render.Core.Comp Run

/-! ## Frames on the wire -/

/-- the octets of one frame, not longer than allowed -/
def WholeFrame (maxFrameSize : ℕ) (octets : Octets) : Prop :=
  octets.length = 9 + declaredLength octets ∧ declaredLength octets ≤ maxFrameSize

instance (maxFrameSize : ℕ) (octets : Octets) : Decidable (WholeFrame maxFrameSize octets) :=
  inferInstanceAs (Decidable (_ ∧ _))

/-- the transport delivers these frames and does not end -/
structure Delivers (wire : List Octets) (c : H2Connection) : Prop where
  unread : c.unread = wire.flatten
  framed : ∀ octets ∈ wire, WholeFrame c.config.maxFrameSize.toNat octets
  lasts : ∀ event ∈ c.io.incoming, ¬ event.Ends

/-- the frames that the octets decode to, one by one -/
def decodedFrames (config : H2Config) (wire : List Octets) : List Frame :=
  wire.filterMap fun octets => (Frame.decode octets config.maxFrameSize.toNat).toOption

/-- the octets of the frames that were received, in order -/
def receivedOctets (trace : List Event) : List Octets :=
  trace.filterMap fun event =>
    match event with
    | .received octets => some octets
    | _ => none

/-- the frames that were dispatched, in order -/
def dispatchedFrames (trace : List Event) : List Frame :=
  trace.filterMap fun event =>
    match event with
    | .dispatched _ frame => some frame
    | _ => none

/-- the connection is neither closed nor told to go away -/
def H2Connection.IsOpen (c : H2Connection) : Prop := c.state = .opened ∧ c.goaway = none

instance (c : H2Connection) : Decidable c.IsOpen :=
  inferInstanceAs (Decidable (c.state = .opened ∧ c.goaway = none))

/-- `poll_frame` over and over; what it returns is dropped -/
def polls : ℕ → Run Unit
  | 0 => pure ()
  | n + 1 => do
    let _ ← attempt pollFrame
    polls n

theorem decodedFrames_append (config : H2Config) (wire rest : List Octets) :
    decodedFrames config (wire ++ rest) = decodedFrames config wire ++ decodedFrames config rest :=
  List.filterMap_append

theorem receivedOctets_append (trace added : List Event) :
    receivedOctets (trace ++ added) = receivedOctets trace ++ receivedOctets added := List.filterMap_append

theorem receivedOctets_concat {trace : List Event} {event : Event} (hevent : ∀ octets, event ≠ .received octets) :
    receivedOctets (trace ++ [event]) = receivedOctets trace := by
  rw [receivedOctets_append]
  cases event with
  | received octets => exact absurd rfl (hevent octets)
  | dispatched before frame => exact List.append_nil _
  | handled before frame result => exact List.append_nil _
  | sent before frame => exact List.append_nil _
  | unflushed frame => exact List.append_nil _

theorem Event.Quiet.ne_received {w : Bool} {event : Event} (h : event.Quiet w) (octets : Octets) :
    event ≠ .received octets := by
  rintro rfl
  cases h

/-- the first frame of the wire is complete -/
theorem not_incomplete {octets rest : Octets} (h : octets.length = 9 + declaredLength octets) :
    ¬ Incomplete (octets ++ rest) := by
  rw [Incomplete, declaredLength_append (by omega), List.length_append]
  omega

/-- the frame that is taken off the octets is the first frame of the wire -/
theorem Delivers.first {wire : List Octets} {c : H2Connection} (h : Delivers wire c) {octets rest : Octets}
    (hunread : octets ++ rest = c.unread) (hlength : octets.length = 9 + declaredLength c.unread) :
    ∃ wire', wire = octets :: wire' ∧ rest = wire'.flatten := by
  rw [h.unread] at hunread hlength
  cases hwire : wire with
  | nil =>
    rw [hwire] at hunread
    have hempty : octets = [] := (List.append_eq_nil_iff.1 hunread).1
    rw [hempty, List.length_nil] at hlength
    omega
  | cons first wire' =>
    have hfirst := (h.framed first (by simp [hwire])).1
    rw [hwire, List.flatten_cons] at hunread hlength
    rw [declaredLength_append (by omega)] at hlength
    have hsplit := List.append_inj hunread (by omega)
    exact ⟨wire', by rw [hsplit.1], hsplit.2⟩

theorem Delivers.not_fails {wire : List Octets} {c : H2Connection} (h : Delivers wire c) : ¬ Fails c := by
  intro hfails
  rcases hfails with ⟨hlength, hlarge⟩ | ⟨event, hmem, hends⟩
  · rw [h.unread] at hlength hlarge
    cases hwire : wire with
    | nil =>
      rw [hwire] at hlength
      simp at hlength
    | cons first wire' =>
      have hfirst := h.framed first (by simp [hwire])
      rw [hwire, List.flatten_cons, declaredLength_append (by have := hfirst.1; omega)] at hlarge
      have := hfirst.2
      omega
  · exact h.lasts event hmem hends

/-! ## One poll -/

/-- the frames that are still to come, a bound on the reads for them, and what was received and dispatched -/
structure Stands (config : H2Config) (wire : List Octets) (reads : ℕ) (received : List Octets) (frames : List Frame)
    (s : Session) : Prop where
  delivers : Delivers wire s.conn
  config_eq : s.conn.config = config
  reads_le : s.conn.io.incoming.length ≤ reads
  received_eq : receivedOctets s.trace = received
  frames_eq : dispatchedFrames s.trace = frames

section Polling

variable {config : H2Config} {wire : List Octets} {reads : ℕ} {received : List Octets} {frames : List Frame}

theorem ignores_stands : Ignores true true (Stands config wire reads received frames) := by
  refine ⟨?_, ?_⟩
  · intro s c' hsame h
    refine ⟨⟨?_, ?_, ?_⟩, ?_, ?_, h.received_eq, h.frames_eq⟩
    · rw [H2Connection.unread, hsame.readBuffer, hsame.incoming]
      exact h.delivers.unread
    · rw [hsame.config]
      exact h.delivers.framed
    · rw [hsame.incoming]
      exact h.delivers.lasts
    · rw [hsame.config]
      exact h.config_eq
    · rw [hsame.incoming]
      exact h.reads_le
  · intro s event hquiet h
    refine ⟨h.delivers, h.config_eq, h.reads_le, ?_, ?_⟩
    · rw [receivedOctets_concat hquiet.ne_received]
      exact h.received_eq
    · rw [← h.frames_eq]
      cases event with
      | sent before frame => simp [dispatchedFrames]
      | unflushed frame => simp [dispatchedFrames]
      | received octets => cases hquiet
      | dispatched before frame => cases hquiet
      | handled before frame result => cases hquiet

/-- what follows the dispatch of a frame adds the frame, and nothing else that shows here -/
theorem dispatch_stands (frame : Frame) : Spec (Stands config wire reads received frames) (dispatch frame) fun _ =>
    Stands config wire reads received (frames ++ [frame]) := by
  intro s r t hs hrun
  rw [dispatch, conn_bind, log_bind] at hrun
  have hafter : Stands config wire reads received (frames ++ [frame])
      ⟨s.conn, s.trace ++ [.dispatched s.conn frame]⟩ := by
    refine ⟨hs.delivers, hs.config_eq, hs.reads_le, ?_, ?_⟩
    · rw [← hs.received_eq]
      simp [receivedOctets]
    · rw [← hs.frames_eq]
      simp [dispatchedFrames]
  refine (Keeps.bind (keeps_attempt ignores_stands.mono.handleFrame) ?_ :
    Keeps (Stands config wire reads received (frames ++ [frame])) _) _ r t hafter hrun
  intro result
  refine Keeps.bind (keeps_log ?_) fun _ => Keeps.pure _
  intro u hu
  refine ⟨hu.delivers, hu.config_eq, hu.reads_le, ?_, ?_⟩
  · rw [← hu.received_eq]
    simp [receivedOctets]
  · rw [← hu.frames_eq]
    simp [dispatchedFrames]

theorem keeps_pollError (error : H2Error) : Keeps (Stands config wire reads received frames) (pollError error) := by
  rw [pollError]
  refine Keeps.bind (ignores_stands.reportError error) ?_
  intro _
  refine Keeps.ite (fun _ => keeps_raise _) ?_
  intro _
  split
  · refine Keeps.bind ?_ fun _ => Keeps.pure _
    exact ignores_stands.side fun _ => ⟨rfl, rfl, rfl, rfl, rfl, rfl, rfl, rfl⟩
  · exact keeps_raise _

/-- a closed connection is left as it is -/
theorem pollFrame_closed {s : Session} (h : ¬ s.conn.IsOpen) : ∃ error, pollFrame s = some (.error (.error error), s) := by
  have hensure : ∃ error, ensureOpen s = some (.error (.error error), s) := by
    rw [ensureOpen, conn_bind]
    cases hgoaway : s.conn.goaway with
    | some goaway => exact ⟨_, rfl⟩
    | none =>
      have hclosed : s.conn.state = .closed := by
        cases hstate : s.conn.state with
        | opened => exact absurd ⟨hstate, hgoaway⟩ h
        | closed => rfl
      exact ⟨.connectionClosed, by simp [hclosed]⟩
  obtain ⟨error, hraise⟩ := hensure
  exact ⟨error, bind_run_error hraise⟩

theorem polls_closed (n : ℕ) {s : Session} (h : ¬ s.conn.IsOpen) : polls n s = some (.ok (), s) := by
  induction n with
  | zero => rfl
  | succ n ih =>
    obtain ⟨error, hpoll⟩ := pollFrame_closed h
    have hattempt : attempt pollFrame s = some (.ok (.error error), s) := by rw [attempt_run, hpoll]
    rw [polls, bind_run_ok hattempt]
    exact ih

/-- **One poll.** It waits for octets, or takes the first frame and dispatches it when it decodes. -/
theorem pollFrame_open {s t : Session} {r : Except Halt Bool} (hopen : s.conn.IsOpen)
    (hs : Stands config wire reads received frames s) (hrun : pollFrame s = some (r, t)) :
    (∃ reads', Stands config wire reads' received frames t ∧ (reads' < reads ∨ wire = [])) ∨
      ∃ octets rest, wire = octets :: rest ∧
        Stands config rest reads (received ++ [octets]) (frames ++ decodedFrames config [octets]) t := by
  have hensure : ensureOpen s = some (.ok (), s) := by
    rw [ensureOpen, conn_bind]
    simp [hopen.1, hopen.2]
  rw [pollFrame, bind_run_ok hensure] at hrun
  -- the octets of a frame leave the front of the wire
  have htaken : ∀ (count : ℕ) {buffer octets : Octets} {incoming : List ReadEvent},
      octets ++ (buffer ++ incoming.flatMap ReadEvent.octets) = s.conn.unread →
      octets.length = 9 + declaredLength s.conn.unread → incoming <:+ s.conn.io.incoming →
      ∃ rest, wire = octets :: rest ∧ Stands config rest reads (received ++ [octets]) frames
        ⟨s.conn.reading buffer incoming count, s.trace ++ [.received octets]⟩ := by
    intro count buffer octets incoming hunread hlength hsuffix
    obtain ⟨rest, rfl, hrest⟩ := hs.delivers.first hunread hlength
    refine ⟨rest, rfl, ⟨hrest, ?_, ?_⟩, hs.config_eq, hsuffix.length_le.trans hs.reads_le, ?_, ?_⟩
    · intro octets' hmem
      exact hs.delivers.framed octets' (List.mem_cons_of_mem _ hmem)
    · intro event hmem
      exact hs.delivers.lasts event (hsuffix.subset hmem)
    · rw [← hs.received_eq]
      simp [receivedOctets]
    · rw [← hs.frames_eq]
      simp [dispatchedFrames]
  rcases bind_returns hrun with ⟨halt, hread, rfl⟩ | ⟨frame, u, hread, hrest⟩
  · cases tryReadFrame_cases hread with
    | refused buffer octets incoming count error hunread hlength hsuffix hdecode =>
      obtain ⟨rest, hwire, ht⟩ := htaken count hunread hlength hsuffix
      refine .inr ⟨octets, rest, hwire, ?_⟩
      have hframes : decodedFrames config [octets] = [] := by
        rw [hs.config_eq] at hdecode
        simp [decodedFrames, hdecode, Except.toOption]
      rw [hframes, List.append_nil]
      exact ht
    | failed buffer incoming count error hfails => exact absurd hfails hs.delivers.not_fails
  · cases tryReadFrame_cases hread with
    | timedOut buffer incoming count hunread hincomplete hprogress hsuffix =>
      cases hrest
      refine .inl ⟨incoming.length, ⟨⟨hunread.trans hs.delivers.unread, hs.delivers.framed, ?_⟩, hs.config_eq,
        le_rfl, hs.received_eq, hs.frames_eq⟩, ?_⟩
      · intro event hmem
        exact hs.delivers.lasts event (hsuffix.subset hmem)
      · rcases hprogress with hless | rfl
        · exact .inl (hless.trans_le hs.reads_le)
        · right
          rw [List.flatMap_nil, List.append_nil, hs.delivers.unread] at hunread
          rw [hunread] at hincomplete
          cases hwire : wire with
          | nil => rfl
          | cons octets rest =>
            rw [hwire, List.flatten_cons] at hincomplete
            exact absurd hincomplete (not_incomplete (hs.delivers.framed octets (by simp [hwire])).1)
    | frame buffer octets incoming count frame hunread hlength hsuffix hdecode =>
      obtain ⟨rest, hwire, hu⟩ := htaken count hunread hlength hsuffix
      refine .inr ⟨octets, rest, hwire, ?_⟩
      have hframes : decodedFrames config [octets] = [frame] := by
        rw [hs.config_eq] at hdecode
        simp [decodedFrames, hdecode, Except.toOption]
      rw [hframes]
      rcases bind_returns hrest with ⟨halt, hdispatch, -⟩ | ⟨result, v, hdispatch, hend⟩
      · exact dispatch_stands frame _ _ _ hu hdispatch
      · have hv := dispatch_stands frame _ _ _ hu hdispatch
        cases result with
        | ok _ =>
          cases hend
          exact hv
        | error error => exact keeps_pollError error _ _ _ hv hend

/-! ## Any number of polls -/

theorem polls_stands (n : ℕ) : ∀ {wire : List Octets} {reads : ℕ} {received : List Octets} {frames : List Frame}
    {s t : Session} {result : Except Halt Unit}, Stands config wire reads received frames s →
    polls n s = some (result, t) → ∃ k ≤ wire.length, ∃ reads', Stands config (wire.drop k) reads'
      (received ++ wire.take k) (frames ++ decodedFrames config (wire.take k)) t ∧
      (t.conn.IsOpen → result = .ok () → reads + wire.length < n → k = wire.length) := by
  induction n with
  | zero =>
    intro wire reads received frames s t result hs hrun
    cases hrun
    exact ⟨0, Nat.zero_le _, reads, by simpa [decodedFrames] using hs, fun _ _ h => absurd h (Nat.not_lt_zero _)⟩
  | succ n ih =>
    intro wire reads received frames s t result hs hrun
    by_cases hopen : s.conn.IsOpen
    · obtain ⟨u, r, hpoll, hrest⟩ : ∃ u r, pollFrame s = some (r, u) ∧
          (polls n u = some (result, t) ∨ u = t ∧ result = .error .panic) := by
        rw [polls] at hrun
        rcases bind_returns hrun with ⟨halt, hattempt, rfl⟩ | ⟨value, u, hattempt, hrest⟩
        · rcases attempt_returns hattempt with ⟨_, heq, -⟩ | ⟨heq, hpoll⟩
          · cases heq
          · exact ⟨t, _, hpoll, .inr ⟨rfl, by cases heq; rfl⟩⟩
        · rcases attempt_returns hattempt with ⟨_, -, hpoll⟩ | ⟨heq, -⟩
          · exact ⟨u, _, hpoll, .inl hrest⟩
          · cases heq
      rcases pollFrame_open hopen hs hpoll with ⟨reads', hu, hless⟩ | ⟨octets, rest, rfl, hu⟩
      · -- the poll waited
        rcases hrest with hrest | ⟨rfl, rfl⟩
        · obtain ⟨k, hk, reads'', ht, hall⟩ := ih hu hrest
          refine ⟨k, hk, reads'', ht, ?_⟩
          intro hopen' hresult hmany
          rcases hless with hless | rfl
          · exact hall hopen' hresult (by omega)
          · exact Nat.le_zero.1 hk
        · exact ⟨0, Nat.zero_le _, reads', by simpa [decodedFrames] using hu, fun _ h => by cases h⟩
      · -- the poll took a frame
        rcases hrest with hrest | ⟨rfl, rfl⟩
        · obtain ⟨k, hk, reads'', ht, hall⟩ := ih hu hrest
          refine ⟨k + 1, Nat.succ_le_succ hk, reads'', ?_, ?_⟩
          · rw [List.take_succ_cons, List.drop_succ_cons, ← List.singleton_append, decodedFrames_append,
              ← List.append_assoc, ← List.append_assoc]
            exact ht
          · intro hopen' hresult hmany
            rw [List.length_cons] at hmany
            exact congrArg (· + 1) (hall hopen' hresult (by omega))
        · refine ⟨1, Nat.succ_le_succ (Nat.zero_le _), reads, ?_, fun _ h => by cases h⟩
          simpa using hu
    · -- a closed connection stays as it is
      rw [polls_closed _ hopen] at hrun
      cases hrun
      exact ⟨0, Nat.zero_le _, reads, by simpa [decodedFrames] using hs, fun hopen' => absurd hopen' hopen⟩

end Polling

theorem total_polls (n : ℕ) : Total (polls n) := by
  induction n with
  | zero => exact .pure ()
  | succ n ih => exact .bind (total_attempt total_pollFrame) fun _ => ih

/-- **Polling.** After any number of polls, the frames received are the first `k` of those on the wire, and those of them
that decode were dispatched, in order; the octets of the others are still to be read. While the connection stays open,
enough polls receive them all. -/
theorem poll_frames {wire : List Octets} {s : Session} (hwire : Delivers wire s.conn) (n : ℕ) :
    ∃ result t, polls n s = some (result, t) ∧ ∃ k ≤ wire.length,
      receivedOctets t.trace = receivedOctets s.trace ++ wire.take k ∧
      dispatchedFrames t.trace = dispatchedFrames s.trace ++ decodedFrames s.conn.config (wire.take k) ∧
      t.conn.unread = (wire.drop k).flatten ∧
      (t.conn.IsOpen → result = .ok () → s.conn.io.incoming.length + wire.length < n → k = wire.length) := by
  obtain ⟨result, t, hrun⟩ := total_polls n s
  obtain ⟨k, hk, _, ht, hall⟩ := polls_stands n ⟨hwire, rfl, le_rfl, rfl, rfl⟩ hrun
  exact ⟨result, t, hrun, k, hk, ht.received_eq, ht.frames_eq, ht.delivers.unread, hall⟩

/-- two frames that arrive in three reads, with timeouts in the middle of both -/
def splitPings : Transport where
  incoming := [arrives [0, 0, 8, 6], .timedOut, arrives [0, 0, 0, 0, 0, 1, 2, 3, 4, 5, 6, 7, 8, 0, 0], .interrupted,
    .wouldBlock, arrives [8, 6, 1, 0, 0, 0, 0, 8, 7, 6, 5, 4, 3, 2, 1]]
  outcomes := []

theorem poll_frames_sample : ∃ result t, polls 9 ⟨.start splitPings .default, []⟩ = some (result, t) ∧
    ∃ k ≤ 2, t.conn.unread = (([[0, 0, 8, 6, 0, 0, 0, 0, 0, 1, 2, 3, 4, 5, 6, 7, 8],
      [0, 0, 8, 6, 1, 0, 0, 0, 0, 8, 7, 6, 5, 4, 3, 2, 1]] : List Octets).drop k).flatten ∧
      (t.conn.IsOpen → result = .ok () → k = 2) := by
  have hwire : Delivers [[0, 0, 8, 6, 0, 0, 0, 0, 0, 1, 2, 3, 4, 5, 6, 7, 8],
      [0, 0, 8, 6, 1, 0, 0, 0, 0, 8, 7, 6, 5, 4, 3, 2, 1]] (H2Connection.start splitPings .default) :=
    ⟨rfl, by decide, by decide⟩
  obtain ⟨result, t, hrun, k, hk, -, -, hunread, hall⟩ := poll_frames (s := ⟨_, []⟩) hwire 9
  exact ⟨result, t, hrun, k, hk, hunread, fun hopen hresult => hall hopen hresult (by decide)⟩

/-- `GOAWAY`, and a `PING` behind it -/
def goAwayThenPing : List Octets :=
  [[0, 0, 8, 7, 0, 0, 0, 0, 0, 0, 0, 0, 0, 0, 0, 0, 0], [0, 0, 8, 6, 0, 0, 0, 0, 0, 0, 1, 2, 3, 4, 5, 6, 7]]

/-- one poll dispatches one frame and closes the connection -/
def pollCloses (s : Session) : Bool :=
  match pollFrame s with
  | some (.error (.error _), t) => (dispatchedFrames t.trace).length == 1 && !decide t.conn.IsOpen
  | _ => false

theorem goaway_stops_polls : ¬ ∀ (s : Session) (wire : List Octets), Reachable s → Delivers wire s.conn →
    ∃ n t, polls n s = some (.ok (), t) ∧
      dispatchedFrames t.trace = dispatchedFrames s.trace ++ decodedFrames s.conn.config wire := by
  intro hall
  obtain ⟨s, hs, hview⟩ := exists_reachable (peerSends [goAwayThenPing.flatten]) .default []
    (fun s => decide (s.conn.unread = goAwayThenPing.flatten) && decide (s.conn.config = .default) &&
      decide (∀ event ∈ s.conn.io.incoming, ¬ event.Ends) && decide ((dispatchedFrames s.trace).length = 0) &&
      pollCloses s) true (by decide +kernel)
  simp only [Bool.and_eq_true, decide_eq_true_eq] at hview
  obtain ⟨⟨⟨⟨hunread, hconfig⟩, hlasts⟩, hnone⟩, hcloses⟩ := hview
  have hframed : ∀ octets ∈ goAwayThenPing, WholeFrame s.conn.config.maxFrameSize.toNat octets := by
    rw [hconfig]
    decide
  obtain ⟨n, t, hrun, hframes⟩ := hall s goAwayThenPing hs ⟨hunread, hframed, hlasts⟩
  have htwo : (dispatchedFrames t.trace).length = 2 := by
    rw [hframes, List.length_append, hnone, hconfig]
    rfl
  cases n with
  | zero =>
    cases hrun
    omega
  | succ n =>
    rw [pollCloses] at hcloses
    split at hcloses
    · rename_i error u hpoll
      simp only [Bool.and_eq_true, beq_iff_eq, Bool.not_eq_true', decide_eq_false_iff_not] at hcloses
      have hattempt : attempt pollFrame s = some (.ok (.error error), u) := by rw [attempt_run, hpoll]
      rw [polls, bind_run_ok hattempt, polls_closed n hcloses.2] at hrun
      cases hrun
      omega
    · cases hcloses

end Render.H2
