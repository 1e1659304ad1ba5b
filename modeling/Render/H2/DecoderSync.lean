/-
The HPACK decoder of a connection and the header blocks that it has received.

A reference decoder is fed the fragments of the frames received, put together to blocks (`reference`). As long as the
connection is open its dynamic table is that of the connection (`decoder_in_sync`), under two conditions (`Clean`): the
codec has accepted every frame with a fragment, and no `HEADERS` came for a stream after its `END_STREAM`. The handler of
`HEADERS` returns an error of the stream there before it decodes the block (`ended_stream_desyncs`).
-/
import Render.H2.LateFrames
import Render.H2.Polling

namespace Render.H2

open Render.Core Render.Core.Comp Run

/-! ## The reference decoder -/

/-- the part of a header block in one frame -/
structure Fragment where
  starts : Bool
  ends : Bool
  octets : Octets
deriving DecidableEq

/-- the fragment in the octets of a frame, padding and priority taken off -/
def fragmentOf (octets : Octets) : Option Fragment :=
  let flags := octets.getD 4 0
  let payload := octets.drop 9
  match FrameType.fromU8 (octets.getD 3 0) with
  | .headers =>
    match stripPadding flags payload with
    | .error _ => none
    | .ok body =>
      if hasFlag flags flagPriority then
        if body.length < 5 then none else some ⟨true, hasFlag flags flagEndHeaders, body.drop 5⟩
      else some ⟨true, hasFlag flags flagEndHeaders, body⟩
  | .continuation => some ⟨false, hasFlag flags flagEndHeaders, payload⟩
  | _ => none

/-- a decoder, and the octets of the block that is not yet complete -/
structure Reference where
  decoder : HpackDecoder
  block : Octets

/-- a fragment is added to the block, which is decoded when it is complete -/
def Reference.feed (r : Reference) (fragment : Fragment) : Reference :=
  let block := if fragment.starts then fragment.octets else r.block ++ fragment.octets
  if fragment.ends then ⟨(r.decoder.decode block).2, []⟩ else ⟨r.decoder, block⟩

/-- the decoder that a connection starts with -/
def startDecoder (config : H2Config) : HpackDecoder :=
  (HpackDecoder.new config.headerTableSize.toNat).withHeaderListLimit config.maxHeaderListSize.toNat

/-- the reference decoder after the octets of these frames -/
def reference (config : H2Config) (received : List Octets) : Reference :=
  (received.filterMap fragmentOf).foldl Reference.feed ⟨startDecoder config, []⟩

def FrameKind.fragment : FrameKind → Option Fragment
  | .headers _ endHeaders _ fragment => some ⟨true, endHeaders, fragment⟩
  | .continuation endHeaders fragment => some ⟨false, endHeaders, fragment⟩
  | _ => none

/-- a frame that decodes has the fragment of its octets -/
theorem fragmentOf_decode {octets : Octets} {maxFrameSize : ℕ} {frame : Frame}
    (h : Frame.decode octets maxFrameSize = .ok frame) : fragmentOf octets = frame.kind.fragment := by
  unfold Frame.decode decodeFrame at h
  simp only [bind_eq_ok, pure_eq_ok] at h
  obtain ⟨_, -, _, -, _, -, kind, hkind, rfl⟩ := h
  have htype := (type_of_decodeKind hkind).1
  rw [fragmentOf, htype]
  rw [htype] at hkind
  cases kind with
  | headers endStream endHeaders priority fragment =>
    simp only [FrameKind.wireType, decodeKind, bind_eq_ok, pure_eq_ok] at hkind
    obtain ⟨_, -, body, hbody, ⟨priority', fragment'⟩, hpriority, heq⟩ := hkind
    cases heq
    simp only [FrameKind.wireType, FrameKind.fragment, hbody]
    rw [parsePriority] at hpriority
    split_ifs at hpriority ⊢ with hflag hshort
    · rw [refuse, if_pos hshort] at hpriority
      cases hpriority
    · simp only [bind_eq_ok, pure_eq_ok] at hpriority
      obtain ⟨_, -, _, -, heq⟩ := hpriority
      cases heq
      rfl
    · cases hpriority
      rfl
  | continuation endHeaders fragment =>
    simp only [FrameKind.wireType, decodeKind, bind_eq_ok, pure_eq_ok] at hkind
    obtain ⟨_, -, heq⟩ := hkind
    cases heq
    rfl
  | _ => rfl

theorem reference_concat (config : H2Config) (received : List Octets) (octets : Octets) :
    reference config (received ++ [octets]) = (fragmentOf octets).elim (reference config received)
      (reference config received).feed := by
  rw [reference, List.filterMap_append, List.foldl_append, reference]
  cases hfragment : fragmentOf octets with
  | none => simp [hfragment]
  | some fragment => simp [hfragment]

/-! ## Frames -/

/-- the decoder is the reference decoder, and the open block is the block that it waits for -/
structure InSync (c : H2Connection) (r : Reference) : Prop where
  decoder : c.decoder = r.decoder
  block : ∀ pending, c.pendingInbound = some pending → pending.fragments = r.block

/-- the codec accepts the frames that carry a fragment, and no `HEADERS` comes for a stream that the peer has ended -/
structure Clean (config : H2Config) (trace : List Event) : Prop where
  accepted : ∀ octets ∈ receivedOctets trace, fragmentOf octets ≠ none →
    ∃ frame, Frame.decode octets config.maxFrameSize.toNat = .ok frame
  live : ∀ before frame endStream endHeaders priority fragment, Event.dispatched before frame ∈ trace →
    frame.kind = .headers endStream endHeaders priority fragment →
    ∀ stream, before.streams.lookup frame.header.streamId = some stream → stream.endStreamReceived = false

theorem Clean.prefix {config : H2Config} {trace added : List Event} (h : Clean config (trace ++ added)) :
    Clean config trace := by
  refine ⟨?_, ?_⟩
  · intro octets hmem
    exact h.accepted octets (by simp [receivedOctets_append, hmem])
  · intro before frame endStream endHeaders priority fragment hmem
    exact h.live before frame endStream endHeaders priority fragment (List.mem_append_left _ hmem)

/-- between two frames -/
def Decodes (s : Session) : Prop :=
  Clean s.conn.config s.trace → InSync s.conn (reference s.conn.config (receivedOctets s.trace))

/-- a frame was received, and is not yet dispatched -/
def Decoding (frame : Frame) (s : Session) : Prop :=
  Clean s.conn.config s.trace → ∃ r, InSync s.conn r ∧
    reference s.conn.config (receivedOctets s.trace) = frame.kind.fragment.elim r r.feed

theorem ignores_decodes : Ignores true false Decodes := by
  refine ⟨?_, ?_⟩
  · intro s c' hsame hs hclean
    rw [hsame.config] at hclean ⊢
    obtain ⟨hdecoder, hblock⟩ := hs hclean
    refine ⟨(hsame.decoder rfl).trans hdecoder, ?_⟩
    intro pending hpending
    exact hblock pending ((hsame.pending rfl) ▸ hpending)
  · intro s event hquiet hs hclean
    rw [receivedOctets_concat hquiet.ne_received]
    exact hs hclean.prefix

theorem checkHeaderBlockSize_ok {size : ℕ} {s t : Session} {a : Unit}
    (h : checkHeaderBlockSize size s = some (.ok a, t)) : t = s := by
  rw [checkHeaderBlockSize_run] at h
  split_ifs at h
  · cases h
  · cases h
    rfl

theorem checkHeaderBlockSize_fatal {size : ℕ} {s t : Session} {halt : Halt}
    (h : checkHeaderBlockSize size s = some (.error halt, t)) : Survives Decodes (.error halt) t := by
  rw [checkHeaderBlockSize_run] at h
  split_ifs at h
  · cases h
    exact .inl (.inl rfl)
  · cases h

/-- a block that is complete goes through both decoders -/
theorem finishHeaderBlock_sync {id : StreamId} {trailers endStream : Bool} {block : Octets} {s t : Session}
    {r : Except Halt Unit} (hrun : finishHeaderBlock id trailers endStream block s = some (r, t))
    (hs : Clean s.conn.config s.trace → InSync (s.conn.decoded block) (reference s.conn.config (receivedOctets s.trace))) :
    Survives Decodes r t := by
  rw [finishHeaderBlock_run] at hrun
  split_ifs at hrun with hlarge
  · cases hrun
    exact .inl (.inl rfl)
  · rcases hdecode : (s.conn.decoder.decode block).1 with error | decoded
    · rw [H2Connection.blockFields, hdecode] at hrun
      cases hrun
      exact .inl (decodeError_fatal error)
    · have hrest : Keeps Decodes (propagate (s.conn.blockFields id trailers endStream block) >>= keepFields id endStream) :=
        Keeps.bind (keeps_propagate _) fun fields => ignores_decodes.keepFields id endStream fields
      exact .of_holds (hrest ⟨s.conn.decoded block, s.trace⟩ _ _ hs hrun)

theorem handleHeaders_sync {frame : Frame} {endStream endHeaders : Bool} {priority : Option Priority} {fragment : Octets}
    (hkind : frame.kind = .headers endStream endHeaders priority fragment) {c : H2Connection} {s t : Session}
    {r : Except Halt Unit}
    (hrun : handleHeaders frame.header.streamId endStream endHeaders fragment s = some (r, t))
    (hdispatched : Event.dispatched c frame ∈ s.trace) (hstreams : s.conn.streams = c.streams)
    (hidle : s.conn.pendingInbound = none) (hs : Decoding frame s) : Survives Decodes r t := by
  rw [handleHeaders, conn_bind] at hrun
  cases hlookup : s.conn.streams.lookup frame.header.streamId with
  | none =>
    simp only [hlookup] at hrun
    cases hrun
    exact .inl (protocolError_fatal _)
  | some stream =>
    simp only [hlookup] at hrun
    split_ifs at hrun with hended hend
    · -- the block is dropped, but then the run is not clean
      cases hrun
      refine .inr ?_
      intro hclean
      rw [hclean.live c frame _ _ _ _ hdispatched hkind stream (hstreams ▸ hlookup)] at hended
      cases hended
    · refine finishHeaderBlock_sync hrun ?_
      intro hclean
      obtain ⟨r, hr, hreference⟩ := hs hclean
      rw [hreference, hkind, hend]
      refine ⟨?_, ?_⟩
      · simp [FrameKind.fragment, Reference.feed, H2Connection.decoded, hr.decoder]
      · intro pending hpending
        rw [H2Connection.decoded, hidle] at hpending
        cases hpending
    · rcases bind_returns hrun with ⟨halt, hsize, rfl⟩ | ⟨_, u, hsize, hrest⟩
      · exact checkHeaderBlockSize_fatal hsize
      · rw [checkHeaderBlockSize_ok hsize] at hrest
        cases hrest
        intro hclean
        obtain ⟨r, hr, hreference⟩ := hs hclean
        have hopen : endHeaders = false := by simpa using hend
        refine ⟨?_, ?_⟩
        · rw [hreference, hkind, hopen]
          exact hr.decoder
        · intro pending hsome
          cases hsome
          rw [hreference, hkind, hopen]
          rfl

theorem handleContinuation_sync {frame : Frame} {endHeaders : Bool} {fragment : Octets}
    (hkind : frame.kind = .continuation endHeaders fragment) {s t : Session} {r : Except Halt Unit}
    (hrun : handleContinuation endHeaders fragment s = some (r, t)) (hs : Decoding frame s) : Survives Decodes r t := by
  rw [handleContinuation, conn_bind] at hrun
  cases hpending : s.conn.pendingInbound with
  | none =>
    simp only [hpending] at hrun
    cases hrun
    exact .inl (protocolError_fatal _)
  | some pending =>
    simp only [hpending] at hrun
    rw [bind_run_ok (extendPending_run hpending)] at hrun
    rcases bind_returns hrun with ⟨halt, hsize, rfl⟩ | ⟨_, u, hsize, hrest⟩
    · exact checkHeaderBlockSize_fatal hsize
    · rw [checkHeaderBlockSize_ok hsize] at hrest
      split_ifs at hrest with hend
      · rw [bind_run_ok (takePending_run rfl)] at hrest
        refine finishHeaderBlock_sync hrest ?_
        intro hclean
        obtain ⟨r, hr, hreference⟩ := hs hclean
        refine ⟨?_, ?_⟩
        · rw [hreference, hkind, hend]
          simp [FrameKind.fragment, Reference.feed, H2Connection.decoded, hr.decoder, hr.block pending hpending]
        · intro pending' hnone
          cases hnone
      · cases hrest
        intro hclean
        obtain ⟨r, hr, hreference⟩ := hs hclean
        have hopen : endHeaders = false := by simpa using hend
        refine ⟨?_, ?_⟩
        · rw [hreference, hkind, hopen]
          exact hr.decoder
        · intro pending' hsome
          cases hsome
          rw [hreference, hkind, hopen, hr.block pending hpending]
          rfl

/-- **One frame.** After it both decoders have had the same blocks, or the connection ends. -/
theorem handleFrame_sync (frame : Frame) (u : Session) (hu : Decoding frame u) :
    Spec (fun s => s = ⟨u.conn, u.trace ++ [.dispatched u.conn frame]⟩) (handleFrame frame) (Survives Decodes) := by
  rintro s r t rfl hrun
  have hdecoding : Decoding frame ⟨u.conn, u.trace ++ [.dispatched u.conn frame]⟩ := by
    intro hclean
    rw [receivedOctets_concat (by simp)]
    exact hu hclean.prefix
  rcases horder : checkBlockOrder u.conn frame with error | ⟨⟩
  · rw [handleFrame, conn_bind, horder] at hrun
    cases hrun
    exact .inl (checkBlockOrder_fatal horder)
  · cases hfragment : frame.kind.isHeaderBlock with
    | false =>
      have hnone : frame.kind.fragment = none := by
        revert hfragment
        cases frame.kind <;> simp [FrameKind.isHeaderBlock, FrameKind.fragment]
      have hignores : Ignores frame.kind.isData frame.kind.isHeaderBlock Decodes :=
        ignores_decodes.weaken (fun _ => rfl) (by simp [hfragment])
      refine .of_holds (hignores.handleFrame _ _ _ ?_ hrun)
      intro hclean
      obtain ⟨r, hr, hreference⟩ := hdecoding hclean
      rw [hreference, hnone]
      exact hr
    | true =>
      rw [handleFrame, conn_bind, horder, propagate_ok, pure_bind, handleKind] at hrun
      cases hkind : frame.kind with
      | headers endStream endHeaders priority fragment =>
        have hidle : u.conn.pendingInbound = none := by
          rw [checkBlockOrder.eq_def, hkind] at horder
          rcases hpending : u.conn.pendingInbound with _ | pending
          · rfl
          · rw [hpending] at horder
            cases horder
        rw [hkind] at hrun
        have hlogged : Event.dispatched u.conn frame ∈ u.trace ++ [.dispatched u.conn frame] := by simp
        cases priority with
        | none => exact handleHeaders_sync hkind hrun hlogged rfl hidle hdecoding
        | some priority =>
          refine handleHeaders_sync hkind hrun hlogged rfl hidle ?_
          intro hclean
          obtain ⟨r, hr, hreference⟩ := hdecoding hclean
          exact ⟨r, ⟨hr.decoder, hr.block⟩, hreference⟩
      | continuation endHeaders fragment =>
        rw [hkind] at hrun
        exact handleContinuation_sync hkind hrun hdecoding
      | _ => simp [hkind, FrameKind.isHeaderBlock] at hfragment

/-! ## Runs -/

theorem kept_decodes : KeptByCalls (WhileOpen Decodes) (fun frame => WhileOpen (Decoding frame))
    (fun error s => error.Fatal ∨ WhileOpen Decodes s) fun _ => True := by
  refine keptWhileOpen ignores_decodes ?_ ?_ ?_ (fun frame u _ hu => handleFrame_sync frame u hu) ?_
  · intro s buffer incoming frames hs hclean
    obtain ⟨hdecoder, hblock⟩ := hs hclean
    exact ⟨hdecoder, hblock⟩
  · intro s octets error hs hdecode hclean
    -- a frame with a fragment was refused: then the run is not clean
    have hnone : fragmentOf octets = none := by
      by_contra hfragment
      obtain ⟨frame, hframe⟩ := hclean.accepted octets (by simp [receivedOctets]) hfragment
      rw [hdecode] at hframe
      cases hframe
    have hreceived : receivedOctets (s.trace ++ [.received octets]) = receivedOctets s.trace ++ [octets] :=
      receivedOctets_append _ _
    rw [hreceived, reference_concat, hnone]
    exact hs hclean.prefix
  · intro s octets frame hs hdecode hclean
    have hreceived : receivedOctets (s.trace ++ [.received octets]) = receivedOctets s.trace ++ [octets] :=
      receivedOctets_append _ _
    refine ⟨_, hs hclean.prefix, ?_⟩
    rw [hreceived, reference_concat, fragmentOf_decode hdecode]
  · intro s before frame result hs hclean
    rw [receivedOctets_concat (by simp)]
    exact hs hclean.prefix

theorem connect_decodes {io : Transport} {config : H2Config} {t : Session}
    (h : H2.connect ⟨.start io config, []⟩ = some (.ok (), t)) : Decodes t := by
  obtain ⟨io', s, u, frame, settings, -, hsettings, htry, hkind, haccept⟩ := connect_ok h
  have hstart : Decodes ⟨.start io' config, []⟩ := by
    intro _
    refine ⟨rfl, ?_⟩
    intro pending hpending
    cases hpending
  have hs : Decodes s := ignores_decodes.sendLocalSettings _ _ _ hstart hsettings
  refine ignores_decodes.acceptSettings settings _ _ _ ?_ haccept
  cases htry with
  | frame buffer octets incoming frames _ _ _ _ hdecode =>
    intro hclean
    have hreceived : receivedOctets (s.trace ++ [.received octets]) = receivedOctets s.trace ++ [octets] :=
      receivedOctets_append _ _
    rw [hreceived, reference_concat, fragmentOf_decode hdecode, hkind]
    obtain ⟨hdecoder, hblock⟩ := hs hclean.prefix
    exact ⟨hdecoder, hblock⟩

/-- **The decoder in step.** In every clean run after which the connection is open, its decoder is the reference decoder
that was fed every block received. -/
theorem decoder_in_sync {s : Session} (hs : Reachable s) (hopen : s.conn.state = .opened)
    (hclean : Clean s.conn.config s.trace) :
    s.conn.decoder = (reference s.conn.config (receivedOctets s.trace)).decoder :=
  (kept_decodes.reachable (fun _ _ _ hconnect _ => connect_decodes hconnect) hs hopen hclean).decoder

/-- a response that ends its stream, and `HEADERS` behind it that add a field to the table -/
def headersAfterEnd : Transport := peerSends [okResponse, [0, 0, 5, 1, 5, 0, 0, 0, 1, 0x40, 1, 0x61, 1, 0x62]]

/-- the dropped block is missing from the table -/
theorem ended_stream_desyncs : ¬ ∀ s, Reachable s → s.conn.state = .opened →
    s.conn.decoder.table = (reference s.conn.config (receivedOctets s.trace)).decoder.table := by
  intro hsync
  obtain ⟨s, hs, hview⟩ := exists_reachable headersAfterEnd .default [.sendRequest sampleRequest, .pollFrame, .pollFrame]
    (fun s => decide (s.conn.state = .opened ∧
      s.conn.decoder.table ≠ (reference s.conn.config (receivedOctets s.trace)).decoder.table)) true (by decide +kernel)
  obtain ⟨hopen, hdiffer⟩ := of_decide_eq_true hview
  exact hdiffer (hsync s hs hopen)

/-- an event that leaves a run clean -/
def Event.clean (config : H2Config) : Event → Bool
  | .received octets => (fragmentOf octets).isNone || (Frame.decode octets config.maxFrameSize.toNat).toOption.isSome
  | .dispatched before frame =>
    !frame.kind.isHeaderBlock || (before.streams.lookup frame.header.streamId).all fun stream => !stream.endStreamReceived
  | _ => true

theorem clean_of_all {config : H2Config} {trace : List Event} (h : trace.all (Event.clean config) = true) :
    Clean config trace := by
  rw [List.all_eq_true] at h
  refine ⟨?_, ?_⟩
  · intro octets hmem hfragment
    obtain ⟨event, hevent, hsome⟩ := List.mem_filterMap.1 hmem
    split at hsome
    · cases hsome
      have hclean := h _ hevent
      simp only [Event.clean, Bool.or_eq_true, Option.isNone_iff_eq_none, hfragment, false_or] at hclean
      rcases hdecode : Frame.decode octets config.maxFrameSize.toNat with error | frame
      · rw [hdecode] at hclean
        cases hclean
      · exact ⟨frame, rfl⟩
    · cases hsome
  · intro before frame endStream endHeaders priority fragment hmem hkind stream hlookup
    have hclean := h _ hmem
    simpa [Event.clean, hkind, FrameKind.isHeaderBlock, hlookup] using hclean

theorem decoder_in_sync_sample : ∃ s : Session, s.conn.decoder.table.entries = [⟨[0x61], [0x62]⟩] ∧
    s.conn.decoder = (reference s.conn.config (receivedOctets s.trace)).decoder := by
  obtain ⟨s, hs, hview⟩ := exists_reachable (peerSends [[0, 0, 5, 1, 4, 0, 0, 0, 1, 0x40, 1, 0x61, 1, 0x62]]) .default
    [.sendRequest sampleRequest, .pollFrame]
    (fun s => decide (s.conn.state = .opened ∧ s.conn.decoder.table.entries = [⟨[0x61], [0x62]⟩]) &&
      s.trace.all (Event.clean s.conn.config)) true (by decide +kernel)
  rw [Bool.and_eq_true, decide_eq_true_eq] at hview
  obtain ⟨⟨hopen, htable⟩, hclean⟩ := hview
  exact ⟨s, htable, decoder_in_sync hs hopen (clean_of_all hclean)⟩

end Render.H2
