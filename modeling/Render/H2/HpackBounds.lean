/-
What an HPACK decoder holds is bounded, whatever its peer sends (`decoder_bounded`): each representation keeps the bounds of
the table and of the header list (`Block.Bounded.decodeOne`), and a block that fails keeps what came before the failure.
-/
import Render.H2.HpackSync

namespace Render.H2

open Render.Core

namespace HpackDecoder

variable {decoder : HpackDecoder}

/-- the table is within what the decoder announced, the list within its limit -/
structure Block.Bounded (decoder : HpackDecoder) (b : Block) : Prop where
  sound : b.table.Sound
  capacity : b.table.maxSize ≤ decoder.maxAllowedTableSize
  size_eq : b.headerListSize = totalSize b.headers
  size_le : b.headerListSize ≤ decoder.headerListLimit

/-- a field that is accounted for, in a table that keeps its bounds -/
theorem Block.Bounded.push {b : Block} (h : b.Bounded decoder) {field : HeaderField} {table : DynamicTable} {size : ℕ}
    (htable : table = b.table ∨ table = b.table.insert field)
    (hsize : account { decoder with table := b.table } field b.headerListSize = .ok size) :
    Block.Bounded decoder ⟨table, b.headers ++ [field], size, true⟩ := by
  unfold account at hsize
  split_ifs at hsize with hlimit
  obtain rfl := Except.ok.inj hsize
  have hle : b.headerListSize + field.size ≤ decoder.headerListLimit := Nat.not_lt.1 fun hlt => hlimit (.inr hlt)
  have heq : b.headerListSize + field.size = totalSize (b.headers ++ [field]) := by simp [totalSize, h.size_eq]
  rcases htable with rfl | rfl
  · exact ⟨h.sound, h.capacity, heq, hle⟩
  · exact ⟨h.sound.insert field, (DynamicTable.maxSize_insert ..).trans_le h.capacity, heq, hle⟩

theorem Block.Bounded.decodeOne {b b' : Block} (h : b.Bounded decoder) {block rest : Octets} {first : UInt8}
    (hrun : decoder.decodeOne b block first = .ok (b', rest)) : b'.Bounded decoder := by
  unfold HpackDecoder.decodeOne at hrun
  dsimp only at hrun
  split_ifs at hrun
  · obtain ⟨⟨index, _⟩, -, hrun⟩ := bind_eq_ok.1 hrun
    obtain ⟨_, -, hrun⟩ := bind_eq_ok.1 hrun
    obtain ⟨field, -, hrun⟩ := bind_eq_ok.1 hrun
    obtain ⟨size, hsize, hrun⟩ := bind_eq_ok.1 hrun
    cases hrun
    exact h.push (.inl rfl) hsize
  · obtain ⟨⟨field, _⟩, -, hrun⟩ := bind_eq_ok.1 hrun
    obtain ⟨size, hsize, hrun⟩ := bind_eq_ok.1 hrun
    cases hrun
    exact h.push (.inr rfl) hsize
  · obtain ⟨_, -, hrun⟩ := bind_eq_ok.1 hrun
    obtain ⟨⟨size, _⟩, -, hrun⟩ := bind_eq_ok.1 hrun
    obtain ⟨_, hallowed, hrun⟩ := bind_eq_ok.1 hrun
    cases hrun
    exact ⟨h.sound.setMaxSize size, Nat.not_lt.1 (refuse_eq_ok.1 hallowed), h.size_eq, h.size_le⟩
  · obtain ⟨⟨field, _⟩, -, hrun⟩ := bind_eq_ok.1 hrun
    obtain ⟨size, hsize, hrun⟩ := bind_eq_ok.1 hrun
    cases hrun
    exact h.push (.inl rfl) hsize

theorem Block.Bounded.decodeLoop (fuel : ℕ) {b : Block} (h : b.Bounded decoder) (block : Octets) :
    ((decoder.decodeLoop fuel b block).2.Sound ∧
      (decoder.decodeLoop fuel b block).2.maxSize ≤ decoder.maxAllowedTableSize) ∧
      ∀ headers, (decoder.decodeLoop fuel b block).1 = .ok headers → totalSize headers ≤ decoder.headerListLimit := by
  have hstop : ∀ headers, (.ok b.headers : Except HpackError (List HeaderField)) = .ok headers →
      totalSize headers ≤ decoder.headerListLimit := by
    rintro headers ⟨⟩
    exact h.size_eq ▸ h.size_le
  induction fuel generalizing b block with
  | zero => exact ⟨⟨h.sound, h.capacity⟩, hstop⟩
  | succ fuel ih =>
    cases block with
    | nil => exact ⟨⟨h.sound, h.capacity⟩, hstop⟩
    | cons first rest =>
      unfold HpackDecoder.decodeLoop
      cases hone : decoder.decodeOne b (first :: rest) first with
      | error e => exact ⟨⟨h.sound, h.capacity⟩, fun _ hrun => by cases hrun⟩
      | ok next =>
        have hnext := h.decodeOne hone
        exact ih hnext next.2 (by rintro headers ⟨⟩; exact hnext.size_eq ▸ hnext.size_le)

theorem decode_bounded (hsound : decoder.table.Sound) (hcapacity : decoder.table.maxSize ≤ decoder.maxAllowedTableSize)
    (block : Octets) : ((decoder.decode block).2.table.Sound ∧
      (decoder.decode block).2.table.maxSize ≤ decoder.maxAllowedTableSize) ∧
      ∀ headers, (decoder.decode block).1 = .ok headers → totalSize headers ≤ decoder.headerListLimit :=
  have hstart : Block.Bounded decoder ⟨decoder.table, [], 0, false⟩ := ⟨hsound, hcapacity, rfl, Nat.zero_le _⟩
  hstart.decodeLoop block.length block

/-- the decoder after blocks from a peer, well formed or not -/
def fed (decoder : HpackDecoder) (blocks : List Octets) : HpackDecoder :=
  blocks.foldl (fun decoder block => (decoder.decode block).2) decoder

end HpackDecoder

/-- **No peer makes a decoder hold more than it announced.** After any sequence of octet strings fed as blocks, failed ones
included: the size of the table is the sum of its entries and within the capacity, which is within the size that the decoder
was made with; and a list that a further block decodes to is within the list limit. -/
theorem decoder_bounded (size listLimit maxStringSize : ℕ) (blocks : List Octets) (block : Octets) :
    ((decoderOf size listLimit maxStringSize).fed blocks).table.Sound ∧
      ((decoderOf size listLimit maxStringSize).fed blocks).table.maxSize ≤ size ∧
      ∀ headers, (((decoderOf size listLimit maxStringSize).fed blocks).decode block).1 = .ok headers →
        totalSize headers ≤ listLimit := by
  have hrun : ∀ (decoder : HpackDecoder), decoder.table.Sound → decoder.table.maxSize ≤ decoder.maxAllowedTableSize →
      (decoder.fed blocks).table.Sound ∧ (decoder.fed blocks).table.maxSize ≤ decoder.maxAllowedTableSize ∧
        ∀ headers, ((decoder.fed blocks).decode block).1 = .ok headers → totalSize headers ≤ decoder.headerListLimit := by
    induction blocks with
    | nil => exact fun decoder hsound hcapacity =>
        ⟨hsound, hcapacity, (HpackDecoder.decode_bounded hsound hcapacity block).2⟩
    | cons first rest ih =>
      intro decoder hsound hcapacity
      obtain ⟨⟨hsound', hcapacity'⟩, -⟩ := HpackDecoder.decode_bounded hsound hcapacity first
      -- a decode changes the table and nothing else
      exact ih (decoder.decode first).2 hsound' hcapacity'
  exact hrun _ (DynamicTable.sound_new size) le_rfl

end Render.H2
