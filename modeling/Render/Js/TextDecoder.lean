/-
The UTF-8 decoder of `TextDecoder` (`render-js/src/runtime/builtins/encoding.rs`).

The standard decodes octet by octet, as `String::from_utf8_lossy` does. `decode_utf8` takes a sequence at once and asks
first whether its octets are all there. Where they are the two agree; a sequence that the end of the text cuts off is one
U+FFFD with everything behind its first octet, whether that continues it or not (`Swallows`).

A decoder keeps the cut off octets of a call and whether a byte order mark was removed. It looks for the mark where the
octets of a call begin, at whatever place of the text that is.
-/
import Render.Net.Cors

namespace Render.Js.TextDecoder

open Render.Core Render.Net

/-- `utf8_lead`: the width of the sequence, and the range of its second octet -/
def utf8Lead (octet : ℕ) : Option (ℕ × ℕ × ℕ) :=
  if octet ≤ 0x7F then some (1, 0, 0)
  else if 0xC2 ≤ octet ∧ octet ≤ 0xDF then some (2, 0x80, 0xBF)
  else if octet = 0xE0 then some (3, 0xA0, 0xBF)
  else if 0xE1 ≤ octet ∧ octet ≤ 0xEC then some (3, 0x80, 0xBF)
  else if octet = 0xED then some (3, 0x80, 0x9F)
  else if 0xEE ≤ octet ∧ octet ≤ 0xEF then some (3, 0x80, 0xBF)
  else if octet = 0xF0 then some (4, 0x90, 0xBF)
  else if 0xF1 ≤ octet ∧ octet ≤ 0xF3 then some (4, 0x80, 0xBF)
  else if octet = 0xF4 then some (4, 0x80, 0x8F)
  else none

structure Utf8Outcome where
  text : Chars
  pending : Octets
  errored : Bool

def Utf8Outcome.push (c : Char) (errored : Bool) (outcome : Utf8Outcome) : Utf8Outcome :=
  ⟨c :: outcome.text, outcome.pending, errored || outcome.errored⟩

/-- the bits of the first octet -/
def payload (width octet : ℕ) : ℕ := if width = 2 then octet % 32 else if width = 3 then octet % 16 else octet % 8

/-- the loop over `offset`: the scalar and what is behind it, or what begins at the octet that is out of range -/
def continuations : ℕ → ℕ → ℕ → ℕ → Octets → Except Octets (ℕ × Octets)
  | 0, _, _, scalar, rest => .ok (scalar, rest)
  | _ + 1, _, _, _, [] => .error []
  | count + 1, low, high, scalar, octet :: rest =>
    if low ≤ octet.toNat ∧ octet.toNat ≤ high then
      continuations count 0x80 0xBF (scalar * 64 + octet.toNat % 64) rest
    else .error (octet :: rest)

/-- `char::from_u32` -/
def fromU32 (code : ℕ) : Option Char := if code.isValidChar then some (Char.ofNat code) else none

/-- what is behind the octets of a sequence -/
def behind : Except Octets (ℕ × Octets) → Octets
  | .error rest => rest
  | .ok (_, rest) => rest

/-- the octets of a sequence that were in range -/
theorem continuations_read (count low high scalar : ℕ) (rest : Octets) (hlow : 0x80 ≤ low) (hhigh : high ≤ 0xBF) :
    ∃ read, rest = read ++ behind (continuations count low high scalar rest) ∧
      ∀ octet ∈ read, 0x80 ≤ octet.toNat ∧ octet.toNat ≤ 0xBF := by
  fun_induction continuations count low high scalar rest with
  | case1 => exact ⟨[], rfl, by simp⟩
  | case2 => exact ⟨[], rfl, by simp⟩
  | case3 count low high scalar octet rest h ih =>
    obtain ⟨read, hrest, hread⟩ := ih le_rfl le_rfl
    exact ⟨octet :: read, congrArg _ hrest, List.forall_mem_cons.2 ⟨⟨by omega, by omega⟩, hread⟩⟩
  | case4 => exact ⟨[], rfl, by simp⟩

theorem behind_length (count low high scalar : ℕ) (rest : Octets) :
    (behind (continuations count low high scalar rest)).length ≤ rest.length := by
  fun_induction continuations count low high scalar rest with
  | case1 => exact le_rfl
  | case2 => exact le_rfl
  | case3 _ _ _ _ _ _ _ ih => exact ih.trans (Nat.le_succ _)
  | case4 => exact le_rfl

/-- the loop of `decode_utf8` -/
def utf8Loop (stream : Bool) : Octets → Utf8Outcome
  | [] => ⟨[], [], false⟩
  | octet :: rest =>
    match utf8Lead octet.toNat with
    | none => (utf8Loop stream rest).push '\uFFFD' true
    | some (width, low, high) =>
      if width = 1 then (utf8Loop stream rest).push (Char.ofNat octet.toNat) false
      else if rest.length + 1 < width then
        if stream then ⟨[], octet :: rest, false⟩ else ⟨['\uFFFD'], [], true⟩
      else
        let read := continuations (width - 1) low high (payload width octet.toNat) rest
        match read with
        | .error _ => (utf8Loop stream (behind read)).push '\uFFFD' true
        | .ok (scalar, _) => (utf8Loop stream (behind read)).push ((fromU32 scalar).getD '\uFFFD') false
termination_by octets => octets.length
decreasing_by
  all_goals simp only [List.length_cons, Nat.lt_succ_iff, le_refl]
  all_goals exact behind_length ..

/-- EF BB BF -/
def byteOrderMark : Octets := [0xEF, 0xBB, 0xBF]

/-- `decode_utf8` -/
def decodeUtf8 (bytes : Octets) (stream bomSeen : Bool) : Utf8Outcome :=
  utf8Loop stream (if !bomSeen && byteOrderMark.isPrefixOf bytes then bytes.drop 3 else bytes)

/-- a `TextDecoder` for UTF-8 -/
structure Decoder where
  fatal : Bool
  pending : Octets
  bomSeen : Bool

/-- `new TextDecoder("utf-8", {fatal, ignoreBOM})` -/
def Decoder.new (fatal ignoreBom : Bool) : Decoder := ⟨fatal, [], ignoreBom⟩

/-- `text_decoder_decode`: no text is a `TypeError` -/
def Decoder.decode (d : Decoder) (chunk : Octets) (stream : Bool) : Option Chars × Decoder :=
  let bytes := d.pending ++ chunk
  let outcome := decodeUtf8 bytes stream d.bomSeen
  if outcome.errored && d.fatal then (none, { d with pending := [] })
  else
    (some outcome.text,
      { d with pending := outcome.pending, bomSeen := d.bomSeen || byteOrderMark.isPrefixOf bytes })

/-! ## One text -/

/-- every octet is one that may continue the sequence in its place -/
def Continues : ℕ → ℕ → Octets → Prop
  | _, _, [] => True
  | low, high, octet :: rest => (low ≤ octet.toNat ∧ octet.toNat ≤ high) ∧ Continues 0x80 0xBF rest

/-- the text ends in a sequence that is cut off and holds an octet that does not continue it -/
def Swallows (bytes : Octets) : Prop :=
  ∃ (before : Octets) (octet : UInt8) (after : Octets) (width low high : ℕ), bytes = before ++ octet :: after ∧
    utf8Lead octet.toNat = some (width, low, high) ∧ after.length + 1 < width ∧ ¬Continues low high after

/-- what a first octet begins is what it begins in the standard -/
theorem start_of_lead (octet : ℕ) : match utf8Lead octet with
    | none => Sequence.start octet = (['\uFFFD'], none)
    | some (width, low, high) =>
      width = 1 ∧ Sequence.start octet = ([Char.ofNat octet], none) ∨
        2 ≤ width ∧ 0x80 ≤ low ∧ high ≤ 0xBF ∧
          Sequence.start octet = ([], some ⟨payload width octet, width - 1, low, high⟩) := by
  unfold utf8Lead
  split_ifs <;> simp only [Sequence.start, payload] <;> grind

/-! ## The octets of one sequence -/

/-- the character of a sequence -/
def readChar : Except Octets (ℕ × Octets) → Char
  | .error _ => '\uFFFD'
  | .ok (scalar, _) => Char.ofNat scalar

theorem lossyLoop_cons (pending : Option Sequence) (octet : UInt8) (rest : Octets) :
    lossyLoop pending (octet :: rest) =
      (Sequence.next pending octet.toNat).1 ++ lossyLoop (Sequence.next pending octet.toNat).2 rest := by
  cases pending <;> rw [lossyLoop]

theorem lossyLoop_out {s : Sequence} {octet : UInt8} (h : ¬(s.low ≤ octet.toNat ∧ octet.toNat ≤ s.high)) (rest : Octets) :
    lossyLoop (some s) (octet :: rest) = '\uFFFD' :: lossyLoop none (octet :: rest) := by
  have hnext : Sequence.next (some s) octet.toNat =
      ('\uFFFD' :: (Sequence.start octet.toNat).1, (Sequence.start octet.toNat).2) := if_neg h
  rw [lossyLoop_cons, lossyLoop_cons, hnext]
  rfl

/-- in the standard too the octets of a sequence make one character, or U+FFFD before the octet that is out of range -/
theorem lossyLoop_continuations {count low high : ℕ} (scalar : ℕ) {rest : Octets} (hlow : 0x80 ≤ low) (hhigh : high ≤ 0xBF)
    (hlength : count < rest.length) : lossyLoop (some ⟨scalar, count + 1, low, high⟩) rest =
      readChar (continuations (count + 1) low high scalar rest) ::
        lossyLoop none (behind (continuations (count + 1) low high scalar rest)) := by
  induction count generalizing low high scalar rest with
  | zero =>
    obtain ⟨octet, later, rfl⟩ := List.exists_cons_of_length_pos hlength
    by_cases hrange : low ≤ octet.toNat ∧ octet.toNat ≤ high
    · have hcode : scalar * 64 + (octet.toNat - 0x80) = scalar * 64 + octet.toNat % 64 := by omega
      simp only [lossyLoop_cons, Sequence.next, continuations, if_pos hrange, hcode]
      rfl
    · rw [lossyLoop_out hrange, continuations, if_neg hrange]
      rfl
  | succ count ih =>
    obtain ⟨octet, later, rfl⟩ := List.exists_cons_of_length_pos (Nat.zero_lt_of_lt hlength)
    by_cases hrange : low ≤ octet.toNat ∧ octet.toNat ≤ high
    · have hcode : scalar * 64 + (octet.toNat - 0x80) = scalar * 64 + octet.toNat % 64 := by omega
      rw [continuations, if_pos hrange, ← ih _ le_rfl le_rfl (Nat.lt_of_succ_lt_succ hlength), lossyLoop_cons]
      simp [Sequence.next, hrange, hcode]
    · rw [lossyLoop_out hrange, continuations, if_neg hrange]
      rfl

theorem continuations_ok {count low high scalar code : ℕ} {rest later : Octets}
    (h : continuations (count + 1) low high scalar rest = .ok (code, later)) :
    ∃ octet more, (low ≤ octet ∧ octet ≤ high) ∧
      continuations count 0x80 0xBF (scalar * 64 + octet % 64) more = .ok (code, later) := by
  cases rest with
  | nil => cases h
  | cons octet more =>
    rw [continuations] at h
    split_ifs at h with hrange
    exact ⟨octet.toNat, more, hrange, h⟩

/-- no sequence in range is a surrogate or too large -/
theorem scalar_valid {octet width low high code : ℕ} {rest later : Octets} (hlead : utf8Lead octet = some (width, low, high))
    (hwidth : width ≠ 1) (h : continuations (width - 1) low high (payload width octet) rest = .ok (code, later)) :
    code.isValidChar := by
  have hrange : (width = 2 ∧ octet < 0xE0 ∨ width = 3 ∧ 0xE0 ≤ octet ∧ octet < 0xF0 ∧ (octet = 0xED → high = 0x9F) ∨
      width = 4 ∧ (octet = 0xF0 → low = 0x90) ∧ (octet = 0xF4 → high = 0x8F) ∧ 0xF0 ≤ octet ∧ octet ≤ 0xF4) ∧
      0x80 ≤ low ∧ high ≤ 0xBF := by
    unfold utf8Lead at hlead
    split_ifs at hlead <;> simp only [Option.some.injEq, Prod.mk.injEq] at hlead <;> omega
  obtain ⟨hrange, hlow, hhigh⟩ := hrange
  unfold Nat.isValidChar
  obtain ⟨rfl, hoctet⟩ | ⟨rfl, hstart, hoctet, hlast⟩ | ⟨rfl, hfirst, hlast, hoctet⟩ := hrange
  · obtain ⟨a, _, ha, h⟩ := continuations_ok h
    cases h
    simp only [payload, if_true]
    omega
  · obtain ⟨a, _, ha, h⟩ := continuations_ok h
    obtain ⟨b, _, hb, h⟩ := continuations_ok h
    cases h
    have hpayload : payload 3 octet = octet % 16 := rfl
    omega
  · obtain ⟨a, _, ha, h⟩ := continuations_ok h
    obtain ⟨b, _, hb, h⟩ := continuations_ok h
    obtain ⟨c, _, hc, h⟩ := continuations_ok h
    cases h
    have hpayload : payload 4 octet = octet % 8 := rfl
    omega

/-! ## The loop -/

theorem lossyLoop_ne_nil (pending : Option Sequence) {octets : Octets} (h : pending.isSome ∨ octets ≠ []) :
    lossyLoop pending octets ≠ [] := by
  induction octets generalizing pending with
  | nil =>
    cases pending
    · simp at h
    · simp [lossyLoop]
  | cons octet rest ih =>
    have hnext : (Sequence.next pending octet.toNat).1 ≠ [] ∨ (Sequence.next pending octet.toNat).2.isSome := by
      cases pending <;> simp only [Sequence.next, Sequence.start] <;> split_ifs <;> simp
    rw [lossyLoop_cons, ne_eq, List.append_eq_nil_iff, not_and_or]
    exact hnext.imp_right fun hsome => ih _ (.inl hsome)

/-- a sequence that is cut off is one U+FFFD in the standard, if all its octets continue it -/
theorem lossyLoop_cut {scalar needed low high : ℕ} {rest : Octets} (h : rest.length < needed) :
    lossyLoop (some ⟨scalar, needed, low, high⟩) rest = ['\uFFFD'] ↔ Continues low high rest := by
  induction rest generalizing scalar needed low high with
  | nil => simp [lossyLoop, Continues]
  | cons octet rest ih =>
    rw [Continues]
    by_cases hrange : low ≤ octet.toNat ∧ octet.toNat ≤ high
    · have hneeded : needed ≠ 1 := by
        rw [List.length_cons] at h
        omega
      rw [lossyLoop_cons]
      simp only [Sequence.next, hrange, and_self, if_true, if_neg hneeded, List.nil_append, true_and]
      exact ih (by rw [List.length_cons] at h; omega)
    · rw [lossyLoop_out hrange]
      simp only [List.cons.injEq, true_and, hrange, false_and, iff_false]
      exact lossyLoop_ne_nil none (.inr (List.cons_ne_nil _ _))

/-- an octet whose sequence is not cut off does not matter -/
theorem swallows_cons {octet : UInt8} {rest : Octets} (h : ∀ width low high, utf8Lead octet.toNat = some (width, low, high) →
      width ≤ rest.length + 1) : Swallows (octet :: rest) ↔ Swallows rest := by
  constructor
  · rintro ⟨before, other, after, width, low, high, hbytes, hlead, hcut, hbroken⟩
    cases before with
    | nil =>
      obtain ⟨rfl, rfl⟩ := List.cons.inj hbytes
      exact absurd (h _ _ _ hlead) (not_le.2 hcut)
    | cons first before => exact ⟨before, other, after, width, low, high, (List.cons.inj hbytes).2, hlead, hcut, hbroken⟩
  · rintro ⟨before, other, after, width, low, high, hbytes, hrest⟩
    exact ⟨octet :: before, other, after, width, low, high, congrArg _ hbytes, hrest⟩

/-- an octet that continues a sequence begins none -/
theorem lead_of_continuation {octet : ℕ} (h : 0x80 ≤ octet ∧ octet ≤ 0xBF) : utf8Lead octet = none := by
  unfold utf8Lead
  split_ifs <;> first | omega | rfl

theorem swallows_skip {read : Octets} (h : ∀ octet ∈ read, 0x80 ≤ octet.toNat ∧ octet.toNat ≤ 0xBF) (rest : Octets) :
    Swallows (read ++ rest) ↔ Swallows rest := by
  induction read with
  | nil => rfl
  | cons octet read ih =>
    rw [List.forall_mem_cons] at h
    rw [List.cons_append, swallows_cons fun width low high hlead => ?_, ih h.2]
    rw [lead_of_continuation h.1] at hlead
    cases hlead

theorem not_swallows_nil : ¬Swallows [] := by
  rintro ⟨before, octet, after, width, low, high, hbytes, -⟩
  simp at hbytes

/-- a cut off sequence whose octets all continue it holds no other -/
theorem not_swallows_of_continues {low high : ℕ} {rest : Octets} (hlow : 0x80 ≤ low) (hhigh : high ≤ 0xBF)
    (h : Continues low high rest) : ¬Swallows rest := by
  have hall : ∀ octet ∈ rest, 0x80 ≤ octet.toNat ∧ octet.toNat ≤ 0xBF := by
    induction rest generalizing low high with
    | nil => simp
    | cons octet rest ih => exact List.forall_mem_cons.2 ⟨⟨by have := h.1; omega, by have := h.1; omega⟩, ih le_rfl le_rfl h.2⟩
  rw [← List.append_nil rest, swallows_skip hall]
  exact not_swallows_nil

section Lead

variable {octet : UInt8} {rest : Octets} {width low high : ℕ}

theorem lossy_none (h : utf8Lead octet.toNat = none) : fromUtf8Lossy (octet :: rest) = '\uFFFD' :: fromUtf8Lossy rest := by
  have hstart := start_of_lead octet.toNat
  rw [h] at hstart
  rw [fromUtf8Lossy, lossyLoop_cons, Sequence.next, hstart]
  rfl

theorem lossy_one (h : utf8Lead octet.toNat = some (1, low, high)) :
    fromUtf8Lossy (octet :: rest) = Char.ofNat octet.toNat :: fromUtf8Lossy rest := by
  have hstart := start_of_lead octet.toNat
  rw [h] at hstart
  obtain ⟨-, hstart⟩ | ⟨htwo, -⟩ := hstart
  · rw [fromUtf8Lossy, lossyLoop_cons, Sequence.next, hstart]
    rfl
  · omega

theorem lossy_lead (h : utf8Lead octet.toNat = some (width, low, high)) (hwidth : width ≠ 1) :
    2 ≤ width ∧ 0x80 ≤ low ∧ high ≤ 0xBF ∧
      fromUtf8Lossy (octet :: rest) = lossyLoop (some ⟨payload width octet.toNat, width - 1, low, high⟩) rest := by
  have hstart := start_of_lead octet.toNat
  rw [h] at hstart
  obtain ⟨hone, -⟩ | ⟨htwo, hlow, hhigh, hstart⟩ := hstart
  · exact absurd hone hwidth
  · refine ⟨htwo, hlow, hhigh, ?_⟩
    rw [fromUtf8Lossy, lossyLoop_cons, Sequence.next, hstart]
    rfl

/-- a sequence that is there as a whole -/
theorem lossy_whole (h : utf8Lead octet.toNat = some (width, low, high)) (hwidth : width ≠ 1)
    (hwhole : ¬rest.length + 1 < width) :
    fromUtf8Lossy (octet :: rest) = readChar (continuations (width - 1) low high (payload width octet.toNat) rest) ::
      fromUtf8Lossy (behind (continuations (width - 1) low high (payload width octet.toNat) rest)) ∧
    (Swallows (octet :: rest) ↔
      Swallows (behind (continuations (width - 1) low high (payload width octet.toNat) rest))) := by
  obtain ⟨htwo, hlow, hhigh, hlossy⟩ := @lossy_lead _ rest _ _ _ h hwidth
  obtain ⟨count, rfl⟩ : ∃ count, width = count + 2 := ⟨width - 2, by omega⟩
  rw [hlossy]
  refine ⟨lossyLoop_continuations _ hlow hhigh (by omega), ?_⟩
  rw [swallows_cons fun width' low' high' hlead => ?_]
  · obtain ⟨read, hread, hall⟩ :=
      continuations_read (count + 2 - 1) low high (payload (count + 2) octet.toNat) rest hlow hhigh
    conv_lhs => rw [hread]
    exact swallows_skip hall _
  · rw [h] at hlead
    cases hlead
    omega

theorem utf8Loop_whole (stream : Bool) (h : utf8Lead octet.toNat = some (width, low, high)) (hwidth : width ≠ 1)
    (hwhole : ¬rest.length + 1 < width) : (utf8Loop stream (octet :: rest)).text =
      readChar (continuations (width - 1) low high (payload width octet.toNat) rest) ::
        (utf8Loop stream (behind (continuations (width - 1) low high (payload width octet.toNat) rest))).text := by
  rw [utf8Loop]
  simp only [h, if_neg hwidth, if_neg hwhole]
  split
  · rename_i hread
    rw [hread]
    rfl
  · rename_i scalar later hread
    have hvalid : fromU32 scalar = some (Char.ofNat scalar) := if_pos (scalar_valid h hwidth hread)
    rw [hread, hvalid]
    rfl

end Lead

theorem utf8Loop_iff (bytes : Octets) : (utf8Loop false bytes).text = fromUtf8Lossy bytes ↔ ¬Swallows bytes := by
  fun_induction utf8Loop false bytes with
  | case1 => simp [fromUtf8Lossy, lossyLoop, not_swallows_nil]
  | case2 octet rest hlead ih =>
    rw [swallows_cons (by simp [hlead]), ← ih, lossy_none hlead]
    simp [Utf8Outcome.push]
  | case3 octet rest low high hlead ih =>
    rw [swallows_cons (by simp only [hlead, Option.some.injEq, Prod.mk.injEq]; omega), ← ih, lossy_one hlead]
    simp [Utf8Outcome.push]
  | case4 octet rest width low high hlead hone hcut hstream => cases hstream
  | case5 octet rest width low high hlead hone hcut hstream =>
    obtain ⟨htwo, hlow, hhigh, hlossy⟩ := @lossy_lead _ rest _ _ _ hlead hone
    have hcontinues : fromUtf8Lossy (octet :: rest) = ['\uFFFD'] ↔ Continues low high rest := by
      rw [hlossy]
      exact lossyLoop_cut (by omega)
    rw [eq_comm, hcontinues]
    refine ⟨fun h => ?_, fun h => ?_⟩
    · rintro ⟨before, other, after, width', low', high', hbytes, hother, hafter, hbroken⟩
      cases before with
      | nil =>
        obtain ⟨rfl, rfl⟩ := List.cons.inj hbytes
        rw [hlead] at hother
        cases hother
        exact hbroken h
      | cons first before =>
        exact not_swallows_of_continues hlow hhigh h
          ⟨before, other, after, width', low', high', (List.cons.inj hbytes).2, hother, hafter, hbroken⟩
    · by_contra hbroken
      exact h ⟨[], octet, rest, width, low, high, rfl, hlead, hcut, hbroken⟩
  | case6 octet rest width low high hlead hone hwhole read later hread ih =>
    obtain ⟨hlossy, hswallows⟩ := lossy_whole hlead hone hwhole
    rw [hswallows, ← ih, hlossy, show continuations _ _ _ _ _ = read from rfl, hread]
    simp [Utf8Outcome.push, readChar]
  | case7 octet rest width low high hlead hone hwhole read scalar later hread ih =>
    obtain ⟨hlossy, hswallows⟩ := lossy_whole hlead hone hwhole
    have hvalid : fromU32 scalar = some (Char.ofNat scalar) := if_pos (scalar_valid hlead hone hread)
    rw [hswallows, ← ih, hlossy, show continuations _ _ _ _ _ = read from rfl, hread, hvalid]
    simp [Utf8Outcome.push, readChar]

/-! ## Calls -/

/-- more octets behind a sequence -/
def extend (suffix : Octets) : Except Octets (ℕ × Octets) → Except Octets (ℕ × Octets)
  | .error rest => .error (rest ++ suffix)
  | .ok (scalar, rest) => .ok (scalar, rest ++ suffix)

theorem continuations_append {count : ℕ} (low high scalar : ℕ) {rest : Octets} (suffix : Octets) (h : count ≤ rest.length) :
    continuations count low high scalar (rest ++ suffix) = extend suffix (continuations count low high scalar rest) := by
  induction count generalizing low high scalar rest with
  | zero => rfl
  | succ count ih =>
    obtain ⟨octet, later, rfl⟩ := List.exists_cons_of_length_pos (Nat.zero_lt_of_lt h)
    rw [List.cons_append, continuations, continuations]
    split_ifs
    · exact ih _ _ _ (Nat.le_of_succ_le_succ h)
    · rfl

theorem readChar_extend (suffix : Octets) (read : Except Octets (ℕ × Octets)) :
    readChar (extend suffix read) = readChar read ∧ behind (extend suffix read) = behind read ++ suffix := by
  rcases read with _ | ⟨_, _⟩ <;> exact ⟨rfl, rfl⟩

/-- what a call decodes is what every text that goes on begins with, and the rest is decoded from the octets held back -/
structure Held (bytes : Octets) (outcome : Utf8Outcome) : Prop where
  goesOn (suffix : Octets) : (utf8Loop false (bytes ++ suffix)).text =
    outcome.text ++ (utf8Loop false (outcome.pending ++ suffix)).text
  shorter : outcome.text = [] ∧ outcome.pending = bytes ∨ outcome.pending.length < bytes.length

theorem Held.push {bytes later : Octets} {outcome : Utf8Outcome} (h : Held later outcome) (c : Char) (errored : Bool)
    (hlength : later.length < bytes.length)
    (hfirst : ∀ suffix, (utf8Loop false (bytes ++ suffix)).text = c :: (utf8Loop false (later ++ suffix)).text) :
    Held bytes (outcome.push c errored) where
  goesOn suffix := by
    rw [hfirst, h.goesOn]
    rfl
  shorter := by
    refine .inr ?_
    obtain ⟨-, heq⟩ | hshorter := h.shorter
    · rw [Utf8Outcome.push, heq]
      exact hlength
    · exact hshorter.trans hlength

theorem utf8Loop_held (bytes : Octets) : Held bytes (utf8Loop true bytes) := by
  have hwhole {octet : UInt8} {rest : Octets} {width low high : ℕ} {read : Except Octets (ℕ × Octets)}
      (hlead : utf8Lead octet.toNat = some (width, low, high)) (hone : ¬width = 1) (hlength : ¬rest.length + 1 < width)
      (hread : continuations (width - 1) low high (payload width octet.toNat) rest = read) (suffix : Octets) :
      (utf8Loop false (octet :: rest ++ suffix)).text =
        readChar read :: (utf8Loop false (behind read ++ suffix)).text := by
    have hlonger : ¬(rest ++ suffix).length + 1 < width := by
      rw [List.length_append]
      omega
    rw [List.cons_append, utf8Loop_whole false hlead hone hlonger, continuations_append _ _ _ _ (by omega), hread,
      (readChar_extend suffix read).1, (readChar_extend suffix read).2]
  fun_induction utf8Loop true bytes with
  | case1 => exact ⟨fun _ => rfl, .inl ⟨rfl, rfl⟩⟩
  | case2 octet rest hlead ih =>
    refine ih.push _ _ (Nat.lt_succ_self _) fun suffix => ?_
    rw [List.cons_append, utf8Loop]
    simp only [hlead, Utf8Outcome.push]
  | case3 octet rest low high hlead ih =>
    refine ih.push _ _ (Nat.lt_succ_self _) fun suffix => ?_
    rw [List.cons_append, utf8Loop]
    simp only [hlead, if_true, Utf8Outcome.push]
  | case4 => exact ⟨fun _ => rfl, .inl ⟨rfl, rfl⟩⟩
  | case5 _ _ _ _ _ _ _ _ hstream => exact absurd rfl hstream
  | case6 octet rest width low high hlead hone hlength read later hread ih =>
    refine ih.push _ _ (Nat.lt_succ_of_le (behind_length ..)) fun suffix => ?_
    rw [hwhole hlead hone hlength rfl, show continuations _ _ _ _ _ = read from rfl, hread]
    rfl
  | case7 octet rest width low high hlead hone hlength read scalar later hread ih =>
    have hvalid : fromU32 scalar = some (Char.ofNat scalar) := if_pos (scalar_valid hlead hone hread)
    refine ih.push _ _ (Nat.lt_succ_of_le (behind_length ..)) fun suffix => ?_
    rw [hwhole hlead hone hlength rfl, show continuations _ _ _ _ _ = read from rfl, hread, hvalid]
    rfl

/-- octets that may become a byte order mark are held back -/
theorem utf8Loop_mark {bytes : Octets} (h : bytes <+: byteOrderMark) (hne : bytes ≠ byteOrderMark) :
    (utf8Loop true bytes).pending = bytes := by
  have hlead : utf8Lead (0xEF : UInt8).toNat = some (3, 0x80, 0xBF) := rfl
  obtain ⟨more, hmore⟩ := h
  match bytes with
  | [] => rw [utf8Loop]
  | [first] =>
    obtain ⟨rfl, -⟩ := List.cons.inj hmore
    rw [utf8Loop]
    simp only [hlead]
    rfl
  | [first, second] =>
    obtain ⟨rfl, -⟩ := List.cons.inj hmore
    rw [utf8Loop]
    simp only [hlead]
    rfl
  | first :: second :: third :: rest =>
    simp only [byteOrderMark, List.cons_append, List.cons.injEq, ne_eq] at hmore hne
    have := (List.append_eq_nil_iff.1 hmore.2.2.2).1
    exact absurd ⟨hmore.1, hmore.2.1, hmore.2.2.1, this⟩ hne

theorem utf8Loop_flushed (bytes : Octets) : (utf8Loop false bytes).pending = [] := by
  fun_induction utf8Loop false bytes with
  | case1 => rfl
  | case4 _ _ _ _ _ _ _ _ hstream => cases hstream
  | case5 => rfl
  | _ => assumption

theorem decodeUtf8_of_not_marked {bytes : Octets} (h : ¬byteOrderMark <+: bytes) (stream bomSeen : Bool) :
    decodeUtf8 bytes stream bomSeen = utf8Loop stream bytes := by
  have hmark : byteOrderMark.isPrefixOf bytes = false := by
    rw [Bool.eq_false_iff, ne_eq, List.isPrefixOf_iff_prefix]
    exact h
  rw [decodeUtf8, hmark]
  simp

theorem decodeUtf8_true (bytes : Octets) (stream : Bool) : decodeUtf8 bytes stream true = utf8Loop stream bytes := rfl

theorem decodeUtf8_marked (rest : Octets) (stream : Bool) :
    decodeUtf8 (byteOrderMark ++ rest) stream false = utf8Loop stream rest := rfl

/-- a decoder that does not throw, with the text of the stream it is in and the streams it has ended -/
structure Session where
  decoder : Decoder
  given : Octets
  text : Chars
  ended : List (Octets × Chars)

def Session.new (ignoreBom : Bool) : Session := ⟨.new false ignoreBom, [], [], []⟩

/-- `decode(chunk, {stream})` -/
def Session.call (s : Session) (chunk : Octets) (stream : Bool) : Session :=
  let given := s.given ++ chunk
  let text := s.text ++ ((s.decoder.decode chunk stream).1).getD []
  let decoder := (s.decoder.decode chunk stream).2
  if stream then ⟨decoder, given, text, s.ended⟩ else ⟨decoder, [], [], s.ended ++ [(given, text)]⟩

/-- octets that begin with a byte order mark begin a stream of a decoder that has removed none, or the decoder has removed
one in the stream it is in -/
def Session.Marked (s : Session) (chunk : Octets) : Prop :=
  byteOrderMark <+: s.decoder.pending ++ chunk → (s.decoder.bomSeen ↔ s.given ≠ s.decoder.pending)

/-- the sessions of a decoder, each call of which is `Marked` -/
inductive Session.Run (ignoreBom : Bool) : Session → Prop
  | new : Run ignoreBom (new ignoreBom)
  | call {s : Session} (h : Run ignoreBom s) (chunk : Octets) (stream : Bool)
      (hmarked : ignoreBom = false → s.Marked chunk) : Run ignoreBom (s.call chunk stream)

/-- between two calls: nothing of the stream is decoded yet, or what is left of it decodes to what is left of its text -/
structure Session.Inv (ignoreBom : Bool) (s : Session) : Prop where
  quiet : s.decoder.fatal = false
  ignores : ignoreBom = true → s.decoder.bomSeen = true
  ended : ∀ stream ∈ s.ended, stream.2 = (decodeUtf8 stream.1 false ignoreBom).text
  stream : s.given = s.decoder.pending ∧ s.text = [] ∨ s.decoder.pending.length < s.given.length ∧
    ∀ suffix, (decodeUtf8 (s.given ++ suffix) false ignoreBom).text =
      s.text ++ (utf8Loop false (s.decoder.pending ++ suffix)).text

namespace Session

variable {ignoreBom : Bool} {s : Session} {chunk : Octets}

theorem decode_quiet {d : Decoder} (h : d.fatal = false) (chunk : Octets) (stream : Bool) :
    d.decode chunk stream = (some (decodeUtf8 (d.pending ++ chunk) stream d.bomSeen).text,
      { d with
        pending := (decodeUtf8 (d.pending ++ chunk) stream d.bomSeen).pending
        bomSeen := d.bomSeen || byteOrderMark.isPrefixOf (d.pending ++ chunk) }) := by
  simp [Decoder.decode, h]

/-- at the start of a stream a call looks for a byte order mark as the stream should -/
theorem Inv.decode_first (h : s.Inv ignoreBom) (hmarked : ignoreBom = false → s.Marked chunk)
    (hfirst : s.given = s.decoder.pending) (stream : Bool) :
    decodeUtf8 (s.decoder.pending ++ chunk) stream s.decoder.bomSeen =
      decodeUtf8 (s.decoder.pending ++ chunk) stream ignoreBom := by
  by_cases hmark : byteOrderMark <+: s.decoder.pending ++ chunk
  · cases ignoreBom with
    | true => rw [h.ignores rfl]
    | false =>
      have hseen : s.decoder.bomSeen = false := by
        rw [← Bool.not_eq_true, hmarked rfl hmark]
        exact not_not.2 hfirst
      rw [hseen]
  · rw [decodeUtf8_of_not_marked hmark, decodeUtf8_of_not_marked hmark]

/-- behind the start of a stream a call removes no byte order mark -/
theorem Inv.decode_later (h : s.Inv ignoreBom) (hmarked : ignoreBom = false → s.Marked chunk)
    (hlater : s.given ≠ s.decoder.pending) (stream : Bool) :
    decodeUtf8 (s.decoder.pending ++ chunk) stream s.decoder.bomSeen = utf8Loop stream (s.decoder.pending ++ chunk) := by
  by_cases hmark : byteOrderMark <+: s.decoder.pending ++ chunk
  · have hseen : s.decoder.bomSeen = true := by
      cases ignoreBom with
      | true => exact h.ignores rfl
      | false => exact (hmarked rfl hmark).2 hlater
    rw [hseen, decodeUtf8_true]
  · exact decodeUtf8_of_not_marked hmark _ _

/-- the first octets of a stream are held back, or the stream goes on as they do -/
theorem held_first (ignoreBom : Bool) (bytes : Octets) :
    (decodeUtf8 bytes true ignoreBom).text = [] ∧ (decodeUtf8 bytes true ignoreBom).pending = bytes ∨
      (decodeUtf8 bytes true ignoreBom).pending.length < bytes.length ∧
        ∀ suffix, (decodeUtf8 (bytes ++ suffix) false ignoreBom).text = (decodeUtf8 bytes true ignoreBom).text ++
          (utf8Loop false ((decodeUtf8 bytes true ignoreBom).pending ++ suffix)).text := by
  by_cases hmark : byteOrderMark <+: bytes ∧ ignoreBom = false
  · obtain ⟨⟨rest, rfl⟩, rfl⟩ := hmark
    have hheld := utf8Loop_held rest
    rw [decodeUtf8_marked]
    refine .inr ⟨?_, fun suffix => by rw [List.append_assoc, decodeUtf8_marked, hheld.goesOn]⟩
    have hlength : (byteOrderMark ++ rest).length = rest.length + 3 := by
      rw [List.length_append, Nat.add_comm]
      rfl
    obtain ⟨-, heq⟩ | hshorter := hheld.shorter
    · rw [heq]
      omega
    · omega
  · have hloop (stream : Bool) : decodeUtf8 bytes stream ignoreBom = utf8Loop stream bytes := by
      cases ignoreBom with
      | true => rfl
      | false => exact decodeUtf8_of_not_marked (fun h => hmark ⟨h, rfl⟩) _ _
    have hheld := utf8Loop_held bytes
    rw [hloop]
    refine hheld.shorter.imp_right fun hshorter => ⟨hshorter, fun suffix => ?_⟩
    rw [← hheld.goesOn]
    cases ignoreBom with
    | true => rfl
    | false =>
      rw [decodeUtf8_of_not_marked fun hlonger => ?_]
      obtain hshort | hlong := List.prefix_or_prefix_of_prefix (List.prefix_append bytes suffix) hlonger
      · rw [utf8Loop_mark hshort fun heq => hmark ⟨heq ▸ List.prefix_refl _, rfl⟩] at hshorter
        exact lt_irrefl _ hshorter
      · exact hmark ⟨hlong, rfl⟩

theorem decodeUtf8_flushed (bytes : Octets) (bomSeen : Bool) : (decodeUtf8 bytes false bomSeen).pending = [] :=
  utf8Loop_flushed _

theorem Inv.call (h : s.Inv ignoreBom) (hmarked : ignoreBom = false → s.Marked chunk) (stream : Bool) :
    (s.call chunk stream).Inv ignoreBom := by
  have hdecode := decode_quiet h.quiet chunk stream
  have hignores : ignoreBom = true →
      (s.decoder.bomSeen || byteOrderMark.isPrefixOf (s.decoder.pending ++ chunk)) = true := fun hignore => by
    rw [h.ignores hignore, Bool.true_or]
  cases stream with
  | true =>
    simp only [Session.call, hdecode, if_true, Option.getD_some]
    refine ⟨h.quiet, hignores, h.ended, ?_⟩
    obtain ⟨hfirst, htext⟩ | ⟨hshorter, hgoesOn⟩ := h.stream
    · rw [h.decode_first hmarked hfirst, htext, hfirst]
      exact (held_first ignoreBom _).imp_left fun hheld => ⟨hheld.2.symm, hheld.1⟩
    · have hlater : s.given ≠ s.decoder.pending := fun heq => by simp [heq] at hshorter
      rw [h.decode_later hmarked hlater]
      have hheld := utf8Loop_held (s.decoder.pending ++ chunk)
      refine .inr ⟨?_, fun suffix => ?_⟩
      · have hle : (utf8Loop true (s.decoder.pending ++ chunk)).pending.length ≤ (s.decoder.pending ++ chunk).length :=
          hheld.shorter.elim (fun heq => by rw [heq.2]) le_of_lt
        simp only [List.length_append] at hle ⊢
        omega
      · rw [List.append_assoc, hgoesOn, ← List.append_assoc, hheld.goesOn, List.append_assoc]
  | false =>
    simp only [Session.call, hdecode, Bool.false_eq_true, if_false, Option.getD_some]
    refine ⟨h.quiet, hignores, ?_, .inl ⟨(decodeUtf8_flushed _ _).symm, rfl⟩⟩
    rw [List.forall_mem_append, List.forall_mem_singleton]
    refine ⟨h.ended, ?_⟩
    obtain ⟨hfirst, htext⟩ | ⟨hshorter, hgoesOn⟩ := h.stream
    · rw [h.decode_first hmarked hfirst, htext, hfirst]
      rfl
    · have hlater : s.given ≠ s.decoder.pending := fun heq => by simp [heq] at hshorter
      rw [h.decode_later hmarked hlater, hgoesOn]

theorem Run.inv (h : Run ignoreBom s) : s.Inv ignoreBom := by
  induction h with
  | new => exact ⟨rfl, id, by simp [Session.new], .inl ⟨rfl, rfl⟩⟩
  | call _ chunk stream hmarked ih => exact ih.call hmarked stream

end Session

/-- the standard's text of a stream: without the byte order mark at its start, unless that is to be kept -/
def standardText (ignoreBom : Bool) (bytes : Octets) : Chars :=
  fromUtf8Lossy (if ¬ignoreBom ∧ byteOrderMark <+: bytes then bytes.drop 3 else bytes)

theorem decodeUtf8_iff (ignoreBom : Bool) (bytes : Octets) :
    (decodeUtf8 bytes false ignoreBom).text = standardText ignoreBom bytes ↔ ¬Swallows bytes := by
  by_cases hmark : byteOrderMark <+: bytes ∧ ignoreBom = false
  · obtain ⟨⟨rest, rfl⟩, rfl⟩ := hmark
    have hlead : utf8Lead (0xEF : UInt8).toNat = some (3, 0x80, 0xBF) := rfl
    have hskip : Swallows (byteOrderMark ++ rest) ↔ Swallows rest := by
      have hwhole : ∀ width low high, utf8Lead (0xEF : UInt8).toNat = some (width, low, high) →
          width ≤ ([0xBB, 0xBF] ++ rest : Octets).length + 1 := fun width low high h => by
        rw [hlead] at h
        cases h
        simp
      rw [byteOrderMark, List.cons_append, swallows_cons hwhole]
      exact swallows_skip (by simp) rest
    rw [standardText, if_pos ⟨Bool.false_ne_true, List.prefix_append _ _⟩, hskip, decodeUtf8_marked]
    exact utf8Loop_iff rest
  · have hloop : decodeUtf8 bytes false ignoreBom = utf8Loop false bytes := by
      cases ignoreBom with
      | true => rfl
      | false => exact decodeUtf8_of_not_marked (fun h => hmark ⟨h, rfl⟩) _ _
    rw [standardText, if_neg (by simpa [and_comm] using hmark), hloop]
    exact utf8Loop_iff bytes

/-- a text at the end of a stream is the standard's but for what a cut off sequence swallows, and the calls of a stream
decode what one call on the whole stream does while none finds a byte order mark where it should not look for one -/
theorem textDecoder_standard (ignoreBom : Bool) (bytes : Octets) :
    ((decodeUtf8 bytes false ignoreBom).text = standardText ignoreBom bytes ↔ ¬Swallows bytes) ∧
      ∀ s, Session.Run ignoreBom s → ∀ stream ∈ s.ended, stream.2 = (decodeUtf8 stream.1 false ignoreBom).text :=
  ⟨decodeUtf8_iff ignoreBom bytes, fun _ h => h.inv.ended⟩

/-- '(' behind a cut off sequence is lost; a byte order mark inside a text is removed, and one that begins a second stream
is not -/
theorem textDecoder_departs : (decodeUtf8 [0xE2, 0x28] false true).text ≠ standardText true [0xE2, 0x28] ∧
    (((Session.new false).call [0x61] true).call byteOrderMark false).ended = [(0x61 :: byteOrderMark, ['a'])] ∧
    (((Session.new false).call byteOrderMark false).call byteOrderMark false).ended =
      [(byteOrderMark, []), (byteOrderMark, ['\uFEFF'])] := by
  refine ⟨fun h => (decodeUtf8_iff true _).1 h ⟨[], 0xE2, [0x28], 3, 0x80, 0xBF, rfl, by decide, by decide, ?_⟩, ?_, ?_⟩
  · simp [Continues]
  · simp [Session.call, Session.new, Decoder.new, Decoder.decode, decodeUtf8, utf8Loop, byteOrderMark, utf8Lead,
      Utf8Outcome.push, List.isPrefixOf]
  · simp [Session.call, Session.new, Decoder.new, Decoder.decode, decodeUtf8, utf8Loop, byteOrderMark, utf8Lead,
      Utf8Outcome.push, continuations, payload, fromU32, Nat.isValidChar, behind]

end Render.Js.TextDecoder
