/-
What one run of `try_read_frame` does (`tryReadFrame_cases`), said once for all that is proved about it.

It takes octets from the front of what the connection can still read (`unread`): all octets of one frame, or none. On a
timeout the octets of a frame that is not complete stay in the buffer.
-/
import Render.H2.Calls

namespace Render.H2

open Render.Core Render.Core.Comp Run

/-- the connection after reads: its buffer, what the transport has left to return, and the number of frames -/
def H2Connection.reading (c : H2Connection) (buffer : Octets) (incoming : List ReadEvent) (frames : ℕ) : H2Connection :=
  { c with readBuffer := buffer, io := { c.io with incoming }, stats := { c.stats with framesRead := frames } }

/-- a frame that was decoded -/
def FromWire (frame : Frame) : Prop := ∃ octets maxFrameSize, Frame.decode octets maxFrameSize = .ok frame

/-- the reads that end a connection -/
def ReadEvent.Ends : ReadEvent → Prop
  | eof => True
  | failed _ => True
  | _ => False

instance (event : ReadEvent) : Decidable event.Ends :=
  match event with
  | .data _ => .isFalse id
  | .eof => .isTrue trivial
  | .wouldBlock => .isFalse id
  | .timedOut => .isFalse id
  | .interrupted => .isFalse id
  | .failed _ => .isTrue trivial

/-- the octets do not begin with a complete frame -/
def Incomplete (buffer : Octets) : Prop := buffer.length < 9 + declaredLength buffer ∨ buffer.length < 9

/-- why reading fails: a frame is too long, or the transport ends -/
def Fails (c : H2Connection) : Prop :=
  (9 ≤ c.unread.length ∧ declaredLength c.unread > c.config.maxFrameSize.toNat) ∨ ∃ event ∈ c.io.incoming, event.Ends

/-- **Reading.** The ways `try_read_frame` can end. -/
inductive TryRead (s : Session) : Except Halt (Option Frame) → Session → Prop
  | timedOut (buffer : Octets) (incoming : List ReadEvent) (frames : ℕ)
      (hunread : buffer ++ incoming.flatMap ReadEvent.octets = s.conn.unread) (hincomplete : Incomplete buffer)
      (hprogress : incoming.length < s.conn.io.incoming.length ∨ incoming = [])
      (hsuffix : incoming <:+ s.conn.io.incoming) :
      TryRead s (.ok none) ⟨s.conn.reading buffer incoming frames, s.trace⟩
  | frame (buffer octets : Octets) (incoming : List ReadEvent) (frames : ℕ) (frame : Frame)
      (hunread : octets ++ (buffer ++ incoming.flatMap ReadEvent.octets) = s.conn.unread)
      (hlength : octets.length = 9 + declaredLength s.conn.unread) (hsuffix : incoming <:+ s.conn.io.incoming)
      (hdecode : Frame.decode octets s.conn.config.maxFrameSize.toNat = .ok frame) :
      TryRead s (.ok (some frame)) ⟨s.conn.reading buffer incoming frames, s.trace ++ [.received octets]⟩
  | refused (buffer octets : Octets) (incoming : List ReadEvent) (frames : ℕ) (error : FrameError)
      (hunread : octets ++ (buffer ++ incoming.flatMap ReadEvent.octets) = s.conn.unread)
      (hlength : octets.length = 9 + declaredLength s.conn.unread) (hsuffix : incoming <:+ s.conn.io.incoming)
      (hdecode : Frame.decode octets s.conn.config.maxFrameSize.toNat = .error error) :
      TryRead s (.error (.error (.frame error)))
        ⟨s.conn.reading buffer incoming frames, s.trace ++ [.received octets]⟩
  | failed (buffer : Octets) (incoming : List ReadEvent) (frames : ℕ) (error : H2Error) (hfails : Fails s.conn)
      (hscope : error.streamId = none) :
      TryRead s (.error (.error error)) ⟨(s.conn.reading buffer incoming frames).close, s.trace⟩

/-- the first three octets are those of the whole -/
theorem declaredLength_append {octets rest : Octets} (h : 9 ≤ octets.length) :
    declaredLength (octets ++ rest) = declaredLength octets := by
  rw [declaredLength, declaredLength, List.take_append_of_le_length (by omega)]

/-- how the head of the loop ends -/
inductive Buffered (s : Session) : Except Halt (Option Frame) → Session → Prop
  | incomplete (hincomplete : Incomplete s.conn.readBuffer) : Buffered s (.ok none) s
  | frame (buffer octets : Octets) (frames : ℕ) (frame : Frame) (hbuffer : octets ++ buffer = s.conn.readBuffer)
      (hlength : octets.length = 9 + declaredLength s.conn.readBuffer)
      (hdecode : Frame.decode octets s.conn.config.maxFrameSize.toNat = .ok frame) :
      Buffered s (.ok (some frame)) ⟨s.conn.reading buffer s.conn.io.incoming frames, s.trace ++ [.received octets]⟩
  | refused (buffer octets : Octets) (frames : ℕ) (error : FrameError) (hbuffer : octets ++ buffer = s.conn.readBuffer)
      (hlength : octets.length = 9 + declaredLength s.conn.readBuffer)
      (hdecode : Frame.decode octets s.conn.config.maxFrameSize.toNat = .error error) :
      Buffered s (.error (.error (.frame error)))
        ⟨s.conn.reading buffer s.conn.io.incoming frames, s.trace ++ [.received octets]⟩
  | large (error : H2Error) (hlength : 9 ≤ s.conn.readBuffer.length)
      (hlarge : declaredLength s.conn.readBuffer > s.conn.config.maxFrameSize.toNat) (hscope : error.streamId = none) :
      Buffered s (.error (.error error)) ⟨s.conn.close, s.trace⟩

theorem bufferedFrame_cases {s t : Session} {r : Except Halt (Option Frame)} (h : bufferedFrame s = some (r, t)) :
    Buffered s r t := by
  rw [bufferedFrame, conn_bind] at h
  split_ifs at h with hshort hlarge hincomplete
  · cases h
    exact .incomplete (.inr hshort)
  · cases h
    exact .large _ (by omega) hlarge rfl
  · cases h
    exact .incomplete (.inl hincomplete)
  · have hlength : (s.conn.readBuffer.take (9 + declaredLength s.conn.readBuffer)).length =
        9 + declaredLength s.conn.readBuffer := by
      rw [List.length_take]
      omega
    have hbuffer : s.conn.readBuffer.take (9 + declaredLength s.conn.readBuffer) ++
        s.conn.readBuffer.drop (9 + declaredLength s.conn.readBuffer) = s.conn.readBuffer := List.take_append_drop _ _
    have htake : takeFrame (9 + declaredLength s.conn.readBuffer) s =
        propagate ((Frame.decode (s.conn.readBuffer.take (9 + declaredLength s.conn.readBuffer))
          s.conn.config.maxFrameSize.toNat).mapError .frame)
        ⟨s.conn.reading (s.conn.readBuffer.drop (9 + declaredLength s.conn.readBuffer)) s.conn.io.incoming
          (s.conn.stats.framesRead + 1), s.trace ++
            [.received (s.conn.readBuffer.take (9 + declaredLength s.conn.readBuffer))]⟩ := rfl
    rcases hdecode : Frame.decode (s.conn.readBuffer.take (9 + declaredLength s.conn.readBuffer))
        s.conn.config.maxFrameSize.toNat with error | frame
    · rw [hdecode] at htake
      rw [bind_run_error htake] at h
      cases h
      exact .refused _ _ _ error hbuffer hlength hdecode
    · rw [hdecode] at htake
      rw [bind_run_ok htake] at h
      cases h
      exact .frame _ _ _ frame hbuffer hlength hdecode

/-- the head of the loop, as a run of the whole loop that stops there -/
theorem Buffered.tryRead {s t : Session} {r : Except Halt (Option Frame)} (h : Buffered s r t)
    (hstop : r = .ok none → s.conn.io.incoming = []) : TryRead s r t := by
  cases h with
  | incomplete hincomplete =>
    have hempty := hstop rfl
    exact .timedOut s.conn.readBuffer s.conn.io.incoming s.conn.stats.framesRead rfl hincomplete (.inr hempty)
      (List.suffix_refl _)
  | frame buffer octets frames frame hbuffer hlength hdecode =>
    have hnine : 9 ≤ s.conn.readBuffer.length := by
      rw [← hbuffer, List.length_append]
      omega
    refine .frame buffer octets _ frames frame ?_ ?_ (List.suffix_refl _) hdecode
    · rw [← List.append_assoc, hbuffer]
      rfl
    · rw [H2Connection.unread, declaredLength_append hnine]
      exact hlength
  | refused buffer octets frames error hbuffer hlength hdecode =>
    have hnine : 9 ≤ s.conn.readBuffer.length := by
      rw [← hbuffer, List.length_append]
      omega
    refine .refused buffer octets _ frames error ?_ ?_ (List.suffix_refl _) hdecode
    · rw [← List.append_assoc, hbuffer]
      rfl
    · rw [H2Connection.unread, declaredLength_append hnine]
      exact hlength
  | large error hlength hlarge hscope =>
    refine .failed s.conn.readBuffer s.conn.io.incoming s.conn.stats.framesRead error (.inl ⟨?_, ?_⟩) hscope
    · rw [H2Connection.unread, List.length_append]
      omega
    · rw [H2Connection.unread, declaredLength_append hlength]
      exact hlarge

/-- a run that goes on after one event of the script -/
theorem TryRead.of_step {s t : Session} {r : Except Halt (Option Frame)} {event : ReadEvent} {rest : List ReadEvent}
    {buffer : Octets} (hincoming : s.conn.io.incoming = event :: rest)
    (hunread : buffer ++ rest.flatMap ReadEvent.octets = s.conn.unread)
    (h : TryRead ⟨s.conn.reading buffer rest s.conn.stats.framesRead, s.trace⟩ r t) : TryRead s r t := by
  have hsuffix : rest <:+ s.conn.io.incoming := by
    rw [hincoming]
    exact List.suffix_cons event rest
  have hsame : (s.conn.reading buffer rest s.conn.stats.framesRead).unread = s.conn.unread := hunread
  cases h with
  | timedOut buffer' incoming frames hunread' hincomplete hprogress hsuffix' =>
    refine .timedOut buffer' incoming frames (hunread'.trans hsame) hincomplete ?_ (hsuffix'.trans hsuffix)
    have hlength : s.conn.io.incoming.length = rest.length + 1 := by rw [hincoming, List.length_cons]
    have hle : incoming.length ≤ rest.length := hsuffix'.length_le
    exact .inl (by omega)
  | frame buffer' octets incoming frames frame hunread' hlength hsuffix' hdecode =>
    exact .frame buffer' octets incoming frames frame (hunread'.trans hsame) (by rw [hlength, hsame])
      (hsuffix'.trans hsuffix) hdecode
  | refused buffer' octets incoming frames error hunread' hlength hsuffix' hdecode =>
    exact .refused buffer' octets incoming frames error (hunread'.trans hsame) (by rw [hlength, hsame])
      (hsuffix'.trans hsuffix) hdecode
  | failed buffer' incoming frames error hfails hscope =>
    refine .failed buffer' incoming frames error ?_ hscope
    rcases hfails with hlarge | ⟨event', hmem, hends⟩
    · rw [hsame] at hlarge
      exact .inl hlarge
    · exact .inr ⟨event', hsuffix.subset hmem, hends⟩

theorem readLoop_cases (incoming : List ReadEvent) : ∀ {s t : Session} {r : Except Halt (Option Frame)},
    s.conn.io.incoming = incoming → readLoop incoming s = some (r, t) → TryRead s r t := by
  induction incoming with
  | nil =>
    intro s t r hincoming hrun
    exact (bufferedFrame_cases hrun).tryRead fun _ => hincoming
  | cons event rest ih =>
    intro s t r hincoming hrun
    have hunread : s.conn.unread = s.conn.readBuffer ++ (event.octets ++ rest.flatMap ReadEvent.octets) := by
      rw [H2Connection.unread, hincoming, List.flatMap_cons]
    have hevent : event ∈ s.conn.io.incoming := by
      rw [hincoming]
      exact List.mem_cons_self
    rw [readLoop.eq_def] at hrun
    rcases bind_returns hrun with ⟨halt, hhead, rfl⟩ | ⟨frame, u, hhead, hrest⟩
    · exact (bufferedFrame_cases hhead).tryRead (by simp)
    · have hcases := bufferedFrame_cases hhead
      cases frame with
      | some frame =>
        cases hrest
        exact hcases.tryRead (by simp)
      | none =>
        -- no complete frame yet: one event of the script is consumed
        obtain ⟨hsame, hincomplete⟩ : u = s ∧ Incomplete s.conn.readBuffer := by
          cases hcases with
          | incomplete hincomplete => exact ⟨rfl, hincomplete⟩
        rw [hsame] at hrest
        have hlength : rest.length < s.conn.io.incoming.length := by
          rw [hincoming, List.length_cons]
          omega
        have hsuffix : rest <:+ s.conn.io.incoming := by
          rw [hincoming]
          exact List.suffix_cons event rest
        cases event with
        | data chunk =>
          refine @TryRead.of_step s t r _ rest (s.conn.readBuffer ++ chunk.val) hincoming ?_ (ih rfl hrest)
          rw [hunread, List.append_assoc]
          rfl
        | eof =>
          have hfails : Fails s.conn := .inr ⟨_, hevent, trivial⟩
          have hend : ∃ error : H2Error, error.streamId = none ∧ r = .error (.error error) ∧
              t = ⟨(s.conn.reading s.conn.readBuffer rest s.conn.stats.framesRead).close, s.trace⟩ := by
            simp only [update_bind, conn_bind] at hrest
            split_ifs at hrest <;> cases hrest <;> exact ⟨_, rfl, rfl, rfl⟩
          obtain ⟨error, hscope, rfl, rfl⟩ := hend
          exact .failed _ _ _ error hfails hscope
        | wouldBlock =>
          cases hrest
          exact .timedOut s.conn.readBuffer rest s.conn.stats.framesRead hunread.symm hincomplete (.inl hlength) hsuffix
        | timedOut =>
          cases hrest
          exact .timedOut s.conn.readBuffer rest s.conn.stats.framesRead hunread.symm hincomplete (.inl hlength) hsuffix
        | interrupted => exact TryRead.of_step hincoming hunread.symm (ih rfl hrest)
        | failed message =>
          cases hrest
          exact .failed s.conn.readBuffer rest s.conn.stats.framesRead _ (.inr ⟨_, hevent, trivial⟩) rfl

theorem tryReadFrame_cases {s t : Session} {r : Except Halt (Option Frame)} (h : tryReadFrame s = some (r, t)) :
    TryRead s r t :=
  readLoop_cases _ rfl h

end Render.H2
