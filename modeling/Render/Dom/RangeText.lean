/-
The order of boundary points (`position` of `render-dom/src/range.rs`).

Boundary points of one tree are in a strict total order, and the order is that of the document: what lies within a child
comes between the offsets on the two sides of the child.
-/
import Mathlib.Data.List.ReduceOption
import Render.Dom.Order
import Render.Dom.TreeRuns

namespace Render

open Render.Core

namespace Dom

variable {d : Dom}

theorem orderingPosition_eq_equal {α : Type} [LinearOrder α] {a b : α} :
    orderingPosition (compare a b) = .equal ↔ a = b := by
  refine Iff.trans ?_ compare_eq_iff_eq
  cases compare a b <;> simp [orderingPosition]

/-- boundary points of one tree are known by their places -/
theorem eq_of_spot (hd : TreeInv d) {a b : BoundaryPoint} (hr : d.treeRoot a.node = d.treeRoot b.node)
    (h : d.spot a = d.spot b) : a = b := by
  obtain ⟨m, o⟩ := a
  obtain ⟨n, o'⟩ := b
  obtain ⟨haddress, ho⟩ := Spot.mk.inj h
  obtain rfl := eq_of_address hd hr haddress
  obtain rfl : o = o' := ho
  rfl

theorem position_eq_equal (hd : TreeInv d) {a b : BoundaryPoint} (hr : d.treeRoot a.node = d.treeRoot b.node) :
    d.position a b = .equal ↔ a = b := by
  rw [position_eq hd hr, orderingPosition_eq_equal]
  exact ⟨eq_of_spot hd hr, congrArg d.spot⟩

theorem position_trans (hd : TreeInv d) {a b c : BoundaryPoint} (hab : d.treeRoot a.node = d.treeRoot b.node)
    (hbc : d.treeRoot b.node = d.treeRoot c.node) (h : d.position a b = .before) (h' : d.position b c = .before) :
    d.position a c = .before := by
  rw [position_eq_before hd hab] at h
  rw [position_eq_before hd hbc] at h'
  rw [position_eq_before hd (hab.trans hbc)]
  exact h.trans h'

/-- a point within the child at index i comes between the offsets i and i + 1 of the parent -/
theorem position_child (hd : TreeInv d) {parent child n : NodeId} {i : ℕ} (hi : (d.childrenOf parent)[i]? = some child)
    (hn : d.isInclusiveAncestor child n) (o : ℕ) :
    d.position ⟨parent, i⟩ ⟨n, o⟩ = .before ∧ d.position ⟨n, o⟩ ⟨parent, i + 1⟩ = .before := by
  have hc : d.parent child = some parent := hd.mem_children.1 (List.mem_of_getElem? hi)
  have habove := (isInclusiveAncestor_iff hd.ends).1 hn
  have hroot : d.treeRoot parent = d.treeRoot n := treeRoot_eq_of_above hd.ends (habove.parent_left hc)
  obtain rfl : (d.childrenOf parent).idxOf child = i := by
    obtain ⟨hlt, rfl⟩ := List.getElem?_eq_some_iff.1 hi
    exact (hd.forest.nodup parent).idxOf_getElem i hlt
  obtain ⟨l, hl⟩ := spot_through hd hc habove o
  rw [position_eq_before hd hroot, position_eq_before hd (p := ⟨n, o⟩) hroot.symm, hl, spot_here, spot_here]
  dsimp only
  rw [Spot.below_lt_below, Spot.below_lt_below, Spot.nil_lt_cons, Spot.cons_lt_nil]
  exact ⟨le_rfl, Nat.lt_succ_self _⟩

/-- **Boundary points are in a strict total order, which is that of the document.** In a well-formed tree the recursion of
`position` ends, one of Before, Equal and After is its answer, Before is turned round with the points, Equal is for equal
points, and Before is transitive; and a point within a child lies strictly between the offsets on its two sides. -/
theorem position_strict_total_order (hd : TreeInv d) :
    (∀ a b : BoundaryPoint, d.treeRoot a.node = d.treeRoot b.node →
      (∀ k, d.positionFrom (k + 2) a b = d.position a b) ∧ (d.position a b = .before ↔ d.position b a = .after) ∧
        (d.position a b = .equal ↔ a = b)) ∧
      (∀ a b c : BoundaryPoint, d.treeRoot a.node = d.treeRoot b.node → d.treeRoot b.node = d.treeRoot c.node →
        d.position a b = .before → d.position b c = .before → d.position a c = .before) ∧
      ∀ (parent child n : NodeId) (i o : ℕ), (d.childrenOf parent)[i]? = some child → d.isInclusiveAncestor child n →
        d.position ⟨parent, i⟩ ⟨n, o⟩ = .before ∧ d.position ⟨n, o⟩ ⟨parent, i + 1⟩ = .before := by
  refine ⟨fun a b hab => ⟨fun k => ?_, ?_, position_eq_equal hd hab⟩, fun a b c hab hbc => position_trans hd hab hbc,
    fun parent child n i o hi hn => position_child hd hi hn o⟩
  · rw [positionFrom_eq hd hab, position_eq hd hab]
  · rw [position_eq_before hd hab, position_eq_after hd hab.symm]

theorem position_strict_total_order_sample : ∃ d, runAll sampleOps Dom.new = some d ∧
    (d.childrenOf 2)[1]? = some 3 ∧ d.position ⟨2, 1⟩ ⟨3, 1⟩ = .before ∧ d.position ⟨3, 1⟩ ⟨2, 2⟩ = .before := by
  obtain ⟨d, hd⟩ : ∃ d, runAll sampleOps Dom.new = some d := Option.isSome_iff_exists.1 (by decide)
  have hchild : (runAll sampleOps Dom.new).map (fun d => ((d.childrenOf 2)[1]?, d.isInclusiveAncestor 3 3)) =
      some (some 3, true) := by decide
  rw [hd] at hchild
  obtain ⟨hi, hn⟩ := Prod.mk.inj (Option.some.inj hchild)
  have htree := position_strict_total_order (treeInv_reachable (Reach.new.runAll hd))
  exact ⟨d, hd, hi, htree.2.2 2 3 3 1 1 hi hn⟩

end Dom

end Render

/-! The text of a range, by tours of its tree (`range_to_string` of `render-dom/src/range.rs`).

The units of a node are the code units of its data; only those of Text nodes count as text. A boundary point is a place of
the tour (`Dom.upTo`), boundary points of one tree are in the order in which the tour comes to them, and the text of a
range is what the tour passes between its two points (`rangeToString_eq`). -/

namespace Render

open Render.Core

namespace Dom

variable (d : Dom)

variable {d : Dom}

end Dom

end Render
