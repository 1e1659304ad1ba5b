/-
The static HPACK Huffman code (`render-net/src/h2/hpack/huffman.rs`): 256 octets and EOS, which only pads.

The source keeps the code tree in an arena whose root is node 0; here a node holds its children. No child is the root, so
"the current node is node 0" is kept as `atRoot`. The encoder's accumulator never reaches 64 bits, and is a natural number.
-/
import Render.H2.Error

namespace Render.H2.Huffman

open Render.Core

/-- bit lengths for the octets and EOS -/
def codeLengths : List ℕ := [
  13, 23, 28, 28, 28, 28, 28, 28, 28, 24, 30, 28, 28, 30, 28, 28, 28, 28, 28, 28, 28, 28, 30, 28, 28, 28, 28, 28, 28,
  28, 28, 28, 6, 10, 10, 12, 13, 6, 8, 11, 10, 10, 8, 11, 8, 6, 6, 6, 5, 5, 5, 6, 6, 6, 6, 6, 6, 6, 7, 8, 15, 6, 12,
  10, 13, 6, 7, 7, 7, 7, 7, 7, 7, 7, 7, 7, 7, 7, 7, 7, 7, 7, 7, 7, 7, 7, 7, 7, 8, 7, 8, 13, 19, 13, 14, 6, 15, 5, 6,
  5, 6, 5, 6, 6, 6, 5, 7, 7, 6, 6, 6, 5, 6, 7, 6, 5, 5, 6, 7, 7, 7, 7, 7, 15, 11, 14, 13, 28, 20, 22, 20, 20, 22, 22,
  22, 23, 22, 23, 23, 23, 23, 23, 24, 23, 24, 24, 22, 23, 24, 23, 23, 23, 23, 21, 22, 23, 22, 23, 23, 24, 22, 21, 20,
  22, 22, 23, 23, 21, 23, 22, 22, 24, 21, 22, 23, 23, 21, 21, 22, 21, 23, 22, 23, 23, 20, 22, 22, 22, 23, 22, 22, 23,
  26, 26, 20, 19, 22, 23, 22, 25, 26, 26, 26, 27, 27, 26, 24, 25, 19, 21, 26, 27, 27, 26, 27, 24, 21, 21, 26, 26, 28,
  27, 27, 27, 20, 24, 20, 21, 22, 21, 21, 23, 22, 22, 25, 25, 24, 24, 26, 23, 26, 27, 26, 26, 27, 27, 27, 27, 27, 28,
  27, 27, 27, 27, 27, 26, 30]

/-- the codes, aligned to the least significant bit -/
def codes : List ℕ := [
  0x1ff8, 0x7fffd8, 0xfffffe2, 0xfffffe3, 0xfffffe4, 0xfffffe5, 0xfffffe6, 0xfffffe7, 0xfffffe8, 0xffffea, 0x3ffffffc,
  0xfffffe9, 0xfffffea, 0x3ffffffd, 0xfffffeb, 0xfffffec, 0xfffffed, 0xfffffee, 0xfffffef, 0xffffff0, 0xffffff1,
  0xffffff2, 0x3ffffffe, 0xffffff3, 0xffffff4, 0xffffff5, 0xffffff6, 0xffffff7, 0xffffff8, 0xffffff9, 0xffffffa,
  0xffffffb, 0x14, 0x3f8, 0x3f9, 0xffa, 0x1ff9, 0x15, 0xf8, 0x7fa, 0x3fa, 0x3fb, 0xf9, 0x7fb, 0xfa, 0x16, 0x17, 0x18,
  0x0, 0x1, 0x2, 0x19, 0x1a, 0x1b, 0x1c, 0x1d, 0x1e, 0x1f, 0x5c, 0xfb, 0x7ffc, 0x20, 0xffb, 0x3fc, 0x1ffa, 0x21, 0x5d,
  0x5e, 0x5f, 0x60, 0x61, 0x62, 0x63, 0x64, 0x65, 0x66, 0x67, 0x68, 0x69, 0x6a, 0x6b, 0x6c, 0x6d, 0x6e, 0x6f, 0x70,
  0x71, 0x72, 0xfc, 0x73, 0xfd, 0x1ffb, 0x7fff0, 0x1ffc, 0x3ffc, 0x22, 0x7ffd, 0x3, 0x23, 0x4, 0x24, 0x5, 0x25, 0x26,
  0x27, 0x6, 0x74, 0x75, 0x28, 0x29, 0x2a, 0x7, 0x2b, 0x76, 0x2c, 0x8, 0x9, 0x2d, 0x77, 0x78, 0x79, 0x7a, 0x7b,
  0x7ffe, 0x7fc, 0x3ffd, 0x1ffd, 0xffffffc, 0xfffe6, 0x3fffd2, 0xfffe7, 0xfffe8, 0x3fffd3, 0x3fffd4, 0x3fffd5,
  0x7fffd9, 0x3fffd6, 0x7fffda, 0x7fffdb, 0x7fffdc, 0x7fffdd, 0x7fffde, 0xffffeb, 0x7fffdf, 0xffffec, 0xffffed,
  0x3fffd7, 0x7fffe0, 0xffffee, 0x7fffe1, 0x7fffe2, 0x7fffe3, 0x7fffe4, 0x1fffdc, 0x3fffd8, 0x7fffe5, 0x3fffd9,
  0x7fffe6, 0x7fffe7, 0xffffef, 0x3fffda, 0x1fffdd, 0xfffe9, 0x3fffdb, 0x3fffdc, 0x7fffe8, 0x7fffe9, 0x1fffde,
  0x7fffea, 0x3fffdd, 0x3fffde, 0xfffff0, 0x1fffdf, 0x3fffdf, 0x7fffeb, 0x7fffec, 0x1fffe0, 0x1fffe1, 0x3fffe0,
  0x1fffe2, 0x7fffed, 0x3fffe1, 0x7fffee, 0x7fffef, 0xfffea, 0x3fffe2, 0x3fffe3, 0x3fffe4, 0x7ffff0, 0x3fffe5,
  0x3fffe6, 0x7ffff1, 0x3ffffe0, 0x3ffffe1, 0xfffeb, 0x7fff1, 0x3fffe7, 0x7ffff2, 0x3fffe8, 0x1ffffec, 0x3ffffe2,
  0x3ffffe3, 0x3ffffe4, 0x7ffffde, 0x7ffffdf, 0x3ffffe5, 0xfffff1, 0x1ffffed, 0x7fff2, 0x1fffe3, 0x3ffffe6, 0x7ffffe0,
  0x7ffffe1, 0x3ffffe7, 0x7ffffe2, 0xfffff2, 0x1fffe4, 0x1fffe5, 0x3ffffe8, 0x3ffffe9, 0xffffffd, 0x7ffffe3,
  0x7ffffe4, 0x7ffffe5, 0xfffec, 0xfffff3, 0xfffed, 0x1fffe6, 0x3fffe9, 0x1fffe7, 0x1fffe8, 0x7ffff3, 0x3fffea,
  0x3fffeb, 0x1ffffee, 0x1ffffef, 0xfffff4, 0xfffff5, 0x3ffffea, 0x7ffff4, 0x3ffffeb, 0x7ffffe6, 0x3ffffec, 0x3ffffed,
  0x7ffffe7, 0x7ffffe8, 0x7ffffe9, 0x7ffffea, 0x7ffffeb, 0xffffffe, 0x7ffffec, 0x7ffffed, 0x7ffffee, 0x7ffffef,
  0x7fffff0, 0x3ffffee, 0x3fffffff]

inductive Node where
  | mk (zero one : Option Node) (symbol : Option ℕ)

namespace Node

def default : Node := .mk none none none

def symbol : Node → Option ℕ
  | .mk _ _ symbol => symbol

def child (bit : Bool) : Node → Option Node
  | .mk zero one _ => if bit then one else zero

/-- the path of a code is made where it is missing, and its last node gets the symbol -/
def insert (s : ℕ) : List Bool → Node → Node
  | [], .mk zero one _ => .mk zero one (some s)
  | false :: bits, .mk zero one symbol => .mk (some (insert s bits (zero.getD default))) one symbol
  | true :: bits, .mk zero one symbol => .mk zero (some (insert s bits (one.getD default))) symbol

end Node

/-- the code of a symbol, most significant bit first -/
def codeOf (s : ℕ) : List Bool := bitsOf (codeLengths.getD s 0) (codes.getD s 0)

/-- codes and lengths, with their symbols -/
def table : List ((ℕ × ℕ) × ℕ) := (codes.zip codeLengths).zipIdx

def tree : Node := table.foldl (fun node entry => node.insert entry.2 (bitsOf entry.1.2 entry.1.1)) .default

/-! ## Decoding -/

/-- where the decoder stands between two bits -/
structure Decoding where
  node : Node
  atRoot : Bool
  bitsSinceSymbol : ℕ
  allOnes : Bool
  output : Octets

/-- at the root of the tree, with `output` decoded so far -/
def Decoding.start (root : Node) (output : Octets) : Decoding := ⟨root, true, 0, true, output⟩

def decodeBit (root : Node) (d : Decoding) (bit : Bool) : Except HpackError Decoding :=
  match d.node.child bit with
  | none => .error .invalidHuffmanCode
  | some node =>
    match node.symbol with
    | none => .ok ⟨node, false, d.bitsSinceSymbol + 1, d.allOnes && bit, d.output⟩
    | some s => if s = 256 then .error .eosInHuffman else .ok (.start root (d.output ++ [UInt8.ofNat s]))

def decodeBits (root : Node) (d : Decoding) : List Bool → Except HpackError Decoding
  | [] => .ok d
  | bit :: bits => do
    let next ← decodeBit root d bit
    decodeBits root next bits

/-- the bits of a string of octets -/
def bitsOfOctets (octets : Octets) : List Bool := octets.flatMap fun octet => bitsOf 8 octet.toNat

/-- `decode` over a code tree -/
def decodeWith (root : Node) (input : Octets) : Except HpackError Octets := do
  let d ← decodeBits root (.start root []) (bitsOfOctets input)
  refuse (¬ d.atRoot ∧ (d.bitsSinceSymbol > 7 ∨ ¬ d.allOnes)) .invalidHuffmanPadding
  return d.output

def decode (input : Octets) : Except HpackError Octets := decodeWith tree input

/-! ## Encoding -/

/-- the encoder between two symbols: the bits that do not fill an octet yet, and the octets written -/
structure Encoding where
  accumulator : ℕ
  bits : ℕ
  output : Octets

/-- the loop that writes the full octets of the accumulator -/
def emit (accumulator : ℕ) : ℕ → Octets → ℕ × Octets
  | bits + 8, output => emit accumulator bits (output ++ [UInt8.ofNat ((accumulator >>> bits) % 256)])
  | bits, output => (bits, output)

def encodeOctet (e : Encoding) (octet : UInt8) : Encoding :=
  let length := codeLengths.getD octet.toNat 0
  let accumulator := e.accumulator <<< length ||| codes.getD octet.toNat 0
  let (bits, output) := emit accumulator (e.bits + length) e.output
  ⟨accumulator % 2 ^ bits, bits, output⟩

/-- the last octet is filled up with ones, the first bits of EOS -/
def pad (e : Encoding) : Octets :=
  if e.bits > 0 then
    let padding := 8 - e.bits
    e.output ++ [UInt8.ofNat ((e.accumulator <<< padding ||| (2 ^ padding - 1)) % 256)]
  else e.output

def encode (input : Octets) : Octets := pad (input.foldl encodeOctet ⟨0, 0, []⟩)

/-- the length in octets, read off the lengths of the codes -/
def encodedLen (input : Octets) : ℕ := ((input.map fun octet => codeLengths.getD octet.toNat 0).sum + 7) / 8

end Render.H2.Huffman

/-! The Huffman code round-trips: `decode (encode input) = .ok input` for every string of octets (`decode_encode`).

Both directions are read as strings of bits. The encoder writes the codes of the octets behind each other and fills up the
last octet with ones (`bitsOfOctets_encode`). The decoder follows one code from the root of the tree to its symbol
(`decodeBits_codes`), and fewer than eight ones from the root meet no symbol (`decodeBits_ones`). That the tree holds
every code is checked on the table itself (`tree_spells`). -/

namespace Render.H2.Huffman

open Render.Core

/-! ## What the encoder writes -/

@[simp] theorem bitsOfOctets_nil : bitsOfOctets [] = [] := rfl

theorem bitsOfOctets_concat (octets : Octets) (octet : UInt8) :
    bitsOfOctets (octets ++ [octet]) = bitsOfOctets octets ++ bitsOf 8 octet.toNat := by
  simp [bitsOfOctets]

/-- one octet of a number that is shifted right -/
theorem bitsOf_octet (n : ℕ) : bitsOf 8 (UInt8.ofNat (n % 256)).toNat = bitsOf 8 n := by
  have hlt : n % 256 < 2 ^ 8 := Nat.mod_lt _ (by decide)
  rw [UInt8.toNat_ofNat', Nat.mod_eq_of_lt hlt]
  exact bitsOf_mod 8 n

/-- writing the full octets moves bits from the accumulator to the output -/
theorem emit_bits (accumulator : ℕ) (bits : ℕ) (output : Octets) :
    (emit accumulator bits output).1 < 8 ∧
      bitsOfOctets (emit accumulator bits output).2 ++ bitsOf (emit accumulator bits output).1 accumulator =
        bitsOfOctets output ++ bitsOf bits accumulator := by
  induction bits, output using emit.induct accumulator with
  | case1 bits output ih =>
    have hsplit : bitsOf (bits + 8) accumulator = bitsOf 8 (accumulator >>> bits) ++ bitsOf bits accumulator := by
      rw [Nat.add_comm, bitsOf_add]
    rw [emit]
    refine ⟨ih.1, ih.2.trans ?_⟩
    rw [bitsOfOctets_concat, bitsOf_octet, List.append_assoc]
    exact congrArg _ hsplit.symm
  | case2 bits output hfew =>
    have hlt : bits < 8 := by
      by_contra hge
      exact hfew (bits - 8) (by omega)
    rw [emit]
    · exact ⟨hlt, rfl⟩
    · exact hfew

/-- the encoder has written `bits`: in its output, and the rest in its accumulator -/
structure Written (e : Encoding) (bits : List Bool) : Prop where
  bits_lt : e.bits < 8
  written : bitsOfOctets e.output ++ bitsOf e.bits e.accumulator = bits

/-- what the table of codes and lengths comes to -/
theorem table_computed : (codes.length = 257 ∧ codeLengths.length = 257) ∧
    (table.all fun entry => entry.1.1 < 2 ^ entry.1.2) = true ∧ (codeLengths.all fun length => length ≤ 30) = true := by
  decide +kernel

/-- the table has the code and the length of every octet -/
theorem mem_table {s : ℕ} (hs : s < 256) : ((codes.getD s 0, codeLengths.getD s 0), s) ∈ table := by
  obtain ⟨⟨hcodes, hlengths⟩, -⟩ := table_computed
  have hc : codes[s]? = some (codes.getD s 0) := by
    rw [List.getD_eq_getElem?_getD, List.getElem?_eq_getElem (by omega), Option.getD_some]
  have hl : codeLengths[s]? = some (codeLengths.getD s 0) := by
    rw [List.getD_eq_getElem?_getD, List.getElem?_eq_getElem (by omega), Option.getD_some]
  rw [table, List.mk_mem_zipIdx_iff_getElem?]
  exact List.getElem?_zip_eq_some.2 ⟨hc, hl⟩

/-- every code of the table fits its length -/
theorem codes_fit : ∀ s < 256, codes.getD s 0 < 2 ^ codeLengths.getD s 0 := by
  intro s hs
  simpa only [decide_eq_true_eq] using List.all_eq_true.1 table_computed.2.1 _ (mem_table hs)

theorem Written.encodeOctet {e : Encoding} {bits : List Bool} (h : Written e bits) (octet : UInt8) :
    Written (encodeOctet e octet) (bits ++ codeOf octet.toNat) := by
  have hfits := codes_fit octet.toNat octet.toNat_lt
  obtain ⟨hlt, hmoved⟩ := emit_bits (e.accumulator <<< codeLengths.getD octet.toNat 0 ||| codes.getD octet.toNat 0)
    (e.bits + codeLengths.getD octet.toNat 0) e.output
  refine ⟨hlt, ?_⟩
  calc _ = bitsOfOctets e.output ++ bitsOf (e.bits + codeLengths.getD octet.toNat 0)
        (e.accumulator <<< codeLengths.getD octet.toNat 0 ||| codes.getD octet.toNat 0) := by
        rw [← hmoved]
        exact congrArg _ (bitsOf_mod _ _)
    _ = bitsOfOctets e.output ++ (bitsOf e.bits e.accumulator ++ codeOf octet.toNat) := by
        rw [bitsOf_append _ _ hfits]
        rfl
    _ = bits ++ codeOf octet.toNat := by rw [← List.append_assoc, h.written]

theorem written_foldl {e : Encoding} {bits : List Bool} (h : Written e bits) (input : Octets) :
    Written (input.foldl encodeOctet e) (bits ++ input.flatMap fun octet => codeOf octet.toNat) := by
  induction input generalizing e bits with
  | nil => simpa using h
  | cons octet rest ih =>
    rw [List.foldl_cons, List.flatMap_cons, ← List.append_assoc]
    exact ih (h.encodeOctet octet)

theorem bitsOf_ones (k : ℕ) : bitsOf k (2 ^ k - 1) = List.replicate k true := by
  induction k with
  | zero => rfl
  | succ k ih =>
    have htop : (2 ^ (k + 1) - 1).testBit k = true := by
      rw [Nat.testBit_two_pow_sub_one]
      simp
    have hlow : bitsOf k (2 ^ (k + 1) - 1) = bitsOf k (2 ^ k - 1) := by
      apply bitsOf_congr
      intro i hi
      rw [Nat.testBit_two_pow_sub_one, Nat.testBit_two_pow_sub_one]
      simp [hi, Nat.lt_succ_of_lt hi]
    rw [bitsOf, htop, hlow, ih]
    rfl

/-- **The encoder writes the codes**, and ones up to the next octet. -/
theorem bitsOfOctets_encode (input : Octets) : ∃ k < 8, bitsOfOctets (encode input) =
    (input.flatMap fun octet => codeOf octet.toNat) ++ List.replicate k true := by
  have hwritten := @written_foldl ⟨0, 0, []⟩ [] ⟨by decide, rfl⟩ input
  rw [List.nil_append] at hwritten
  unfold encode pad
  set e := input.foldl encodeOctet ⟨0, 0, []⟩
  have hlt := hwritten.bits_lt
  by_cases hbits : e.bits > 0
  · refine ⟨8 - e.bits, by omega, ?_⟩
    have hones : 2 ^ (8 - e.bits) - 1 < 2 ^ (8 - e.bits) := Nat.sub_lt (Nat.two_pow_pos _) (by decide)
    have hfull : bitsOf 8 (e.accumulator <<< (8 - e.bits) ||| (2 ^ (8 - e.bits) - 1)) =
        bitsOf e.bits e.accumulator ++ List.replicate (8 - e.bits) true := by
      rw [← bitsOf_ones, ← bitsOf_append _ _ hones, Nat.add_sub_of_le hlt.le]
    rw [if_pos hbits, bitsOfOctets_concat, bitsOf_octet, hfull, ← List.append_assoc, hwritten.written]
  · refine ⟨0, by decide, ?_⟩
    have hzero : e.bits = 0 := by omega
    have hdone := hwritten.written
    rw [hzero] at hdone
    rw [if_neg hbits]
    simpa [bitsOf] using hdone

/-! ## What the decoder reads -/

/-- do the bits lead from a node to the symbol `s`, with no symbol on the way -/
def Node.spells (s : ℕ) : List Bool → Node → Bool
  | [], _ => false
  | bit :: bits, node =>
    match node.child bit with
    | none => false
    | some next =>
      match next.symbol with
      | some t => bits.isEmpty && t == s
      | none => next.spells s bits

/-- the node the bits lead to, when there is no symbol on the way -/
def Node.passes : List Bool → Node → Option Node
  | [], node => some node
  | bit :: bits, node =>
    match node.child bit with
    | none => none
    | some next =>
      match next.symbol with
      | some _ => none
      | none => next.passes bits

/-- what the tree built from the table comes to -/
theorem tree_computed : (table.all fun entry => tree.spells entry.2 (bitsOf entry.1.2 entry.1.1)) = true ∧
    ((List.range 8).all fun k => (tree.passes (List.replicate k true)).isSome) = true := by decide +kernel

/-- the tree spells the code of every octet -/
theorem tree_spells : ∀ s < 256, tree.spells s (codeOf s) = true := by
  intro s hs
  exact List.all_eq_true.1 tree_computed.1 _ (mem_table hs)

theorem tree_passes : ∀ k < 8, (tree.passes (List.replicate k true)).isSome := by
  intro k hk
  simpa using List.all_eq_true.1 tree_computed.2 k (List.mem_range.2 hk)

section Root

variable {root : Node}

/-- following a code to its symbol starts the decoder afresh, with the symbol put out -/
theorem decodeBits_spells {s : ℕ} (hs : s < 256) {bits : List Bool} (rest : List Bool) {d : Decoding}
    (h : d.node.spells s bits = true) :
    decodeBits root d (bits ++ rest) = decodeBits root (.start root (d.output ++ [UInt8.ofNat s])) rest := by
  induction bits generalizing d with
  | nil => simp [Node.spells] at h
  | cons bit bits ih =>
    rw [Node.spells] at h
    rw [List.cons_append, decodeBits, decodeBit]
    cases hchild : d.node.child bit with
    | none => simp [hchild] at h
    | some next =>
      simp only [hchild] at h ⊢
      cases hsymbol : next.symbol with
      | none =>
        simp only [hsymbol] at h ⊢
        exact ih h
      | some t =>
        simp only [hsymbol, Bool.and_eq_true, List.isEmpty_iff, beq_iff_eq] at h ⊢
        obtain ⟨rfl, rfl⟩ := h
        rw [if_neg (by omega)]
        rfl

theorem decodeBits_codes (hroot : ∀ s < 256, root.spells s (codeOf s) = true) (input output : Octets)
    (rest : List Bool) :
    decodeBits root (.start root output) ((input.flatMap fun octet => codeOf octet.toNat) ++ rest) =
      decodeBits root (.start root (output ++ input)) rest := by
  induction input generalizing output with
  | nil => simp
  | cons octet input ih =>
    have hspells : (Decoding.start root output).node.spells octet.toNat (codeOf octet.toNat) = true :=
      hroot _ octet.toNat_lt
    rw [List.flatMap_cons, List.append_assoc, decodeBits_spells octet.toNat_lt _ hspells, UInt8.ofNat_toNat]
    show decodeBits root (.start root (output ++ [octet])) _ = _
    rw [ih, List.append_assoc, List.singleton_append]

/-- bits that meet no symbol are only counted -/
theorem decodeBits_passes {bits : List Bool} {d : Decoding} {node : Node} (h : d.node.passes bits = some node) :
    decodeBits root d bits = .ok ⟨node, d.atRoot && bits.isEmpty, d.bitsSinceSymbol + bits.length,
      d.allOnes && bits.all id, d.output⟩ := by
  induction bits generalizing d with
  | nil =>
    obtain rfl := Option.some.inj h
    simp [decodeBits]
  | cons bit bits ih =>
    rw [Node.passes] at h
    rw [decodeBits, decodeBit]
    cases hchild : d.node.child bit with
    | none => simp [hchild] at h
    | some next =>
      simp only [hchild] at h ⊢
      cases hsymbol : next.symbol with
      | some t => simp [hsymbol] at h
      | none =>
        simp only [hsymbol] at h ⊢
        refine (ih h).trans ?_
        simp [Bool.and_assoc]
        omega

theorem decodeBits_ones {k : ℕ} (hk : k < 8) (hroot : (root.passes (List.replicate k true)).isSome) (output : Octets) :
    ∃ d, decodeBits root (.start root output) (List.replicate k true) = .ok d ∧ d.bitsSinceSymbol ≤ 7 ∧
      d.allOnes = true ∧ d.output = output := by
  obtain ⟨node, hnode⟩ := Option.isSome_iff_exists.1 hroot
  refine ⟨_, decodeBits_passes (d := .start root output) hnode, ?_, ?_, rfl⟩
  · simp [Decoding.start]
    omega
  · simp [Decoding.start]

/-- a tree that spells every code, and has no symbol below eight ones, decodes what the encoder writes -/
theorem decodeWith_encode (hspells : ∀ s < 256, root.spells s (codeOf s) = true)
    (hpasses : ∀ k < 8, (root.passes (List.replicate k true)).isSome) (input : Octets) :
    decodeWith root (encode input) = .ok input := by
  obtain ⟨k, hk, hbits⟩ := bitsOfOctets_encode input
  obtain ⟨d, hd, hfew, hones, houtput⟩ := decodeBits_ones hk (hpasses k hk) input
  have hread : decodeBits root (.start root []) (bitsOfOctets (encode input)) = .ok d := by
    rw [hbits, decodeBits_codes hspells, List.nil_append, hd]
  unfold decodeWith
  simp [hread, refuse, hones, Nat.not_lt.2 hfew, houtput, bind, Except.bind, pure, Except.pure]

end Root

/-- **Huffman coding round-trips.** Decoding what the encoder writes for a string of octets gives the string. -/
theorem decode_encode (input : Octets) : decode (encode input) = .ok input :=
  decodeWith_encode tree_spells tree_passes input

end Render.H2.Huffman
