/-
Huffman coding is a bijection onto the strings the decoder accepts (`huffman_bijective`).

That the encoder's output decodes is shown in `HuffmanCode`. Here the decoder is read backwards. A path of the tree that
ends in a symbol is the code of this symbol, because inserting a code adds that one path and no other
(`Node.spells_insert`). So the bits read so far are the codes of the octets put out, and behind them the path to the
decoder's node (`Read`). The padding rule leaves fewer than eight ones on this path, and that is how the encoder fills up
its last octet: both strings are whole octets, so the number of ones is the same.
-/
import Mathlib.Tactic
import Render.H2.Huffman

namespace Render.H2.Huffman

open Render.Core

/-! ## The paths of the tree -/

namespace Node

@[simp] theorem child_default (bit : Bool) : default.child bit = none := by
  cases bit <;> rfl

theorem child_insert_nil (s : ℕ) (node : Node) (bit : Bool) : (node.insert s []).child bit = node.child bit := by
  cases node
  rfl

@[simp] theorem symbol_insert_nil (s : ℕ) (node : Node) : (node.insert s []).symbol = some s := by
  cases node
  rfl

@[simp] theorem symbol_insert_cons (s : ℕ) (bit : Bool) (bits : List Bool) (node : Node) :
    (node.insert s (bit :: bits)).symbol = node.symbol := by
  cases node
  cases bit <;> rfl

theorem child_insert_same (s : ℕ) (bit : Bool) (bits : List Bool) (node : Node) :
    (node.insert s (bit :: bits)).child bit = some (((node.child bit).getD default).insert s bits) := by
  cases node
  cases bit <;> rfl

theorem child_insert_other (s : ℕ) {bit other : Bool} (h : other ≠ bit) (bits : List Bool) (node : Node) :
    (node.insert s (bit :: bits)).child other = node.child other := by
  cases node
  cases bit <;> cases other <;> first | rfl | exact absurd rfl h

/-- inserting a code adds no path to a symbol but the code -/
theorem spells_insert {s t : ℕ} {code bits : List Bool} {node : Node} (h : (node.insert s code).spells t bits = true) :
    (bits = code ∧ t = s) ∨ node.spells t bits = true := by
  induction code generalizing bits node with
  | nil =>
    right
    cases bits with
    | nil => exact h
    | cons bit bits => rwa [spells, child_insert_nil] at h
  | cons bit code ih =>
    cases bits with
    | nil => simp [spells] at h
    | cons other bits =>
      by_cases hbit : other = bit
      · subst hbit
        rw [spells, child_insert_same] at h
        rw [spells]
        cases code with
        | nil =>
          left
          simp only [symbol_insert_nil, Bool.and_eq_true, List.isEmpty_iff, beq_iff_eq] at h
          exact ⟨by rw [h.1], h.2.symm⟩
        | cons c code =>
          cases hchild : node.child other with
          | none =>
            simp only [hchild, Option.getD_none, symbol_insert_cons] at h
            rcases ih h with ⟨rfl, rfl⟩ | hdefault
            · exact Or.inl ⟨rfl, rfl⟩
            · cases bits <;> simp [spells] at hdefault
          | some next =>
            simp only [hchild, Option.getD_some, symbol_insert_cons] at h
            cases hsymbol : next.symbol with
            | some u => exact Or.inr (by simpa [hsymbol] using h)
            | none =>
              simp only [hsymbol] at h
              rcases ih h with ⟨rfl, rfl⟩ | hnext
              · exact Or.inl ⟨rfl, rfl⟩
              · exact Or.inr (by simpa [hsymbol] using hnext)
      · right
        rw [spells, child_insert_other s hbit] at h
        rwa [spells]

theorem spells_foldl {entries : List ((ℕ × ℕ) × ℕ)} {node : Node} {t : ℕ} {bits : List Bool}
    (h : (entries.foldl (fun node entry => node.insert entry.2 (bitsOf entry.1.2 entry.1.1)) node).spells t bits =
      true) :
    (∃ entry ∈ entries, bits = bitsOf entry.1.2 entry.1.1 ∧ t = entry.2) ∨ node.spells t bits = true := by
  induction entries generalizing node with
  | nil => exact Or.inr h
  | cons entry entries ih =>
    rcases ih h with ⟨e, he, hbits⟩ | hfirst
    · exact Or.inl ⟨e, List.mem_cons_of_mem _ he, hbits⟩
    · rcases spells_insert hfirst with hcode | hnode
      · exact Or.inl ⟨entry, List.mem_cons_self, hcode⟩
      · exact Or.inr hnode

theorem passes_concat {bits : List Bool} {node last next : Node} {bit : Bool} (h : node.passes bits = some last)
    (hchild : last.child bit = some next) (hsymbol : next.symbol = none) :
    node.passes (bits ++ [bit]) = some next := by
  induction bits generalizing node with
  | nil =>
    obtain rfl := Option.some.inj h
    simp [passes, hchild, hsymbol]
  | cons b bits ih =>
    rw [passes] at h
    rw [List.cons_append, passes]
    cases hb : node.child b with
    | none => simp [hb] at h
    | some below =>
      cases hs : below.symbol with
      | some u => simp [hb, hs] at h
      | none =>
        simp only [hb, hs] at h ⊢
        exact ih h

theorem spells_concat {bits : List Bool} {node last next : Node} {bit : Bool} {s : ℕ}
    (h : node.passes bits = some last) (hchild : last.child bit = some next) (hsymbol : next.symbol = some s) :
    node.spells s (bits ++ [bit]) = true := by
  induction bits generalizing node with
  | nil =>
    obtain rfl := Option.some.inj h
    simp [spells, hchild, hsymbol]
  | cons b bits ih =>
    rw [passes] at h
    rw [List.cons_append, spells]
    cases hb : node.child b with
    | none => simp [hb] at h
    | some below =>
      cases hs : below.symbol with
      | some u => simp [hb, hs] at h
      | none =>
        simp only [hb, hs] at h ⊢
        exact ih h

end Node

/-- **The tree spells nothing but the table.** A path that ends in a symbol is the code of this symbol. -/
theorem tree_spells_only {s : ℕ} {bits : List Bool} (h : tree.spells s bits = true) : s < 257 ∧ bits = codeOf s := by
  have hlength : codes.length = 257 := table_computed.1.1
  rcases Node.spells_foldl h with ⟨⟨⟨code, length⟩, t⟩, hentry, rfl, rfl⟩ | hdefault
  · rw [table, List.mk_mem_zipIdx_iff_getElem?, List.getElem?_zip_eq_some] at hentry
    obtain ⟨hcode, hlen⟩ := hentry
    have hlt : s < codes.length := (List.getElem?_eq_some_iff.1 hcode).1
    refine ⟨hlength ▸ hlt, ?_⟩
    rw [codeOf, List.getD_eq_getElem?_getD, List.getD_eq_getElem?_getD, hcode, hlen]
    rfl
  · cases bits <;> simp [Node.spells] at hdefault

/-! ## The decoder, read backwards -/

/-- the codes of a string of octets -/
def codesOf (octets : Octets) : List Bool := octets.flatMap fun octet => codeOf octet.toNat

theorem codesOf_concat (octets : Octets) (octet : UInt8) :
    codesOf (octets ++ [octet]) = codesOf octets ++ codeOf octet.toNat := by
  simp [codesOf]

/-- the decoder has read `bits`: the codes of its output, and then the path to its node -/
structure Read (root : Node) (d : Decoding) (bits path : List Bool) : Prop where
  bits_eq : bits = codesOf d.output ++ path
  node : root.passes path = some d.node
  atRoot : d.atRoot = path.isEmpty
  bitsSinceSymbol : d.bitsSinceSymbol = path.length
  allOnes : d.allOnes = path.all id

section Root

variable {root : Node}

theorem Read.start (output : Octets) : Read root (.start root output) (codesOf output) [] where
  bits_eq := (List.append_nil _).symm
  node := rfl
  atRoot := rfl
  bitsSinceSymbol := rfl
  allOnes := rfl

theorem Read.decodeBit (honly : ∀ s bits, root.spells s bits = true → s < 257 ∧ bits = codeOf s) {d d' : Decoding}
    {bits path : List Bool} {bit : Bool} (h : Read root d bits path) (hd : decodeBit root d bit = .ok d') :
    ∃ path', Read root d' (bits ++ [bit]) path' := by
  rw [Huffman.decodeBit] at hd
  cases hchild : d.node.child bit with
  | none => simp [hchild] at hd
  | some next =>
    simp only [hchild] at hd
    cases hsymbol : next.symbol with
    | none =>
      simp only [hsymbol] at hd
      obtain rfl := Except.ok.inj hd
      refine ⟨path ++ [bit], ?_⟩
      exact {
        bits_eq := by rw [h.bits_eq, List.append_assoc]
        node := Node.passes_concat h.node hchild hsymbol
        atRoot := by simp
        bitsSinceSymbol := by simp [h.bitsSinceSymbol]
        allOnes := by simp [h.allOnes] }
    | some s =>
      obtain ⟨hs, hcode⟩ := honly _ _ (Node.spells_concat h.node hchild hsymbol)
      simp only [hsymbol] at hd
      split at hd
      · cases hd
      · obtain rfl := Except.ok.inj hd
        have hoctet : (UInt8.ofNat s).toNat = s := by
          rw [UInt8.toNat_ofNat']
          exact Nat.mod_eq_of_lt (by omega)
        have hread : bits ++ [bit] = codesOf (d.output ++ [UInt8.ofNat s]) := by
          rw [codesOf_concat, hoctet, ← hcode, h.bits_eq, List.append_assoc]
        exact ⟨[], hread ▸ Read.start _⟩

theorem Read.decodeBits (honly : ∀ s bits, root.spells s bits = true → s < 257 ∧ bits = codeOf s) {rest : List Bool}
    {d d' : Decoding} {bits path : List Bool} (h : Read root d bits path) (hd : decodeBits root d rest = .ok d') :
    ∃ path', Read root d' (bits ++ rest) path' := by
  induction rest generalizing d bits path with
  | nil =>
    obtain rfl := Except.ok.inj hd
    exact ⟨path, by rwa [List.append_nil]⟩
  | cons bit rest ih =>
    rw [Huffman.decodeBits] at hd
    cases hbit : Huffman.decodeBit root d bit with
    | error e => simp [hbit, bind, Except.bind] at hd
    | ok next =>
      simp only [hbit, bind, Except.bind] at hd
      obtain ⟨path', hnext⟩ := h.decodeBit honly hbit
      have hrest := ih hnext hd
      rwa [List.append_assoc, List.singleton_append] at hrest

end Root

/-- what decodes is the codes of the result, filled up with fewer than eight ones -/
theorem bitsOfOctets_of_decode {input output : Octets} (h : decode input = .ok output) :
    ∃ k < 8, bitsOfOctets input = codesOf output ++ List.replicate k true := by
  rw [decode, decodeWith] at h
  cases hbits : decodeBits tree (.start tree []) (bitsOfOctets input) with
  | error e => simp [hbits, bind, Except.bind] at h
  | ok d =>
    obtain ⟨path, hread⟩ := (Read.start []).decodeBits (fun _ _ => tree_spells_only) hbits
    simp only [hbits, bind, Except.bind] at h
    split at h
    · cases h
    next hrefuse =>
      have hpadding := refuse_eq_ok.1 hrefuse
      obtain rfl : d.output = output := by simpa [pure, Except.pure] using h
      have hones : path = List.replicate path.length true ∧ path.length < 8 := by
        cases path with
        | nil => exact ⟨rfl, by decide⟩
        | cons bit path =>
          have hfew := hread.bitsSinceSymbol
          have hall := hread.allOnes
          rw [hread.atRoot, hfew, hall] at hpadding
          simp only [List.isEmpty_cons, Bool.false_eq_true, not_false_eq_true, true_and, not_or, not_not, not_lt] at hpadding
          refine ⟨List.eq_replicate_iff.2 ⟨rfl, fun b hb => ?_⟩, Nat.lt_succ_of_le hpadding.1⟩
          exact List.all_eq_true.1 hpadding.2 b hb
      refine ⟨path.length, hones.2, ?_⟩
      have hwhole := hread.bits_eq
      rw [hones.1] at hwhole
      exact hwhole

/-! ## Whole octets -/

theorem length_bitsOfOctets (octets : Octets) : (bitsOfOctets octets).length = 8 * octets.length := by
  induction octets with
  | nil => rfl
  | cons octet octets ih =>
    rw [bitsOfOctets, List.flatMap_cons, List.length_append, length_bitsOf, List.length_cons]
    rw [bitsOfOctets] at ih
    omega

theorem bitsOfOctets_injective {a b : Octets} (h : bitsOfOctets a = bitsOfOctets b) : a = b := by
  induction a generalizing b with
  | nil =>
    have hlength := congrArg List.length h
    rw [length_bitsOfOctets, length_bitsOfOctets, List.length_nil] at hlength
    exact (List.length_eq_zero_iff.1 (by omega)).symm
  | cons x a ih =>
    cases b with
    | nil =>
      have hlength := congrArg List.length h
      simp [length_bitsOfOctets] at hlength
    | cons y b =>
      simp only [bitsOfOctets, List.flatMap_cons] at h
      obtain ⟨hxy, hab⟩ := List.append_inj h (by simp)
      rw [ih hab, UInt8.toNat.inj (bitsOf_injective x.toNat_lt y.toNat_lt hxy)]

theorem length_codesOf (octets : Octets) :
    (codesOf octets).length = (octets.map fun octet => codeLengths.getD octet.toNat 0).sum := by
  simp [codesOf, codeOf, List.length_flatMap]

/-- **Huffman coding is a bijection onto its accepted inputs.** The encoder's output decodes to what was encoded and has
the length announced for it; and what decodes at all is the encoding of what it decodes to. -/
theorem huffman_bijective (s x : Octets) :
    decode (encode s) = .ok s ∧ (encode s).length = encodedLen s ∧ (decode x = .ok s → encode s = x) := by
  obtain ⟨k, hk, hencoded⟩ := bitsOfOctets_encode s
  have hwhole := congrArg List.length hencoded
  change _ = (codesOf s ++ _).length at hwhole
  rw [length_bitsOfOctets, List.length_append, List.length_replicate] at hwhole
  refine ⟨decode_encode s, ?_, fun hdecode => ?_⟩
  · rw [encodedLen, ← length_codesOf]
    omega
  · obtain ⟨j, hj, hread⟩ := bitsOfOctets_of_decode hdecode
    have hread_length := congrArg List.length hread
    rw [length_bitsOfOctets, List.length_append, List.length_replicate] at hread_length
    obtain rfl : k = j := by omega
    exact bitsOfOctets_injective (hencoded.trans hread.symm)

/-- five bits of code and three of padding are one octet -/
theorem huffman_bijective_letter : encode [0x61] = [0x1f] :=
  (huffman_bijective [0x61] [0x1f]).2.2 (by decide +kernel)

end Render.H2.Huffman
