/-
Addresses in a forest, over any type: the child indices on the way down from one value to another. Nothing here is about
this repository.

- `L.Down a l m`: the child indices of l lead from a down to m.

In a forest a value has one address below any value above it (`Down.unique`, `exists_down`), and a depth-first walk visits
values in the lexicographic order of their addresses (`visits_sorted`).
-/
import Mathlib.Data.List.Lex
import Mathlib.Order.Lattice
import Mathlib.Order.Lex
import Mathlib.Tactic
import Render.Core.Links

namespace Render.Core

namespace Links

variable {α : Type}

/-- the child indices of the list lead from one value down to the other -/
inductive Down (L : Links α) (a : α) : List ℕ → α → Prop where
  | here : Down L a [] a
  | child {l : List ℕ} {p c : α} {i : ℕ} : Down L a l p → (L.children p)[i]? = some c → Down L a (l ++ [i]) c

variable {L L' : Links α}

namespace Down

theorem single {a c : α} {i : ℕ} (h : (L.children a)[i]? = some c) : L.Down a [i] c := Down.child Down.here h

theorem append {a b c : α} {l m : List ℕ} (hab : L.Down a l b) (hbc : L.Down b m c) : L.Down a (l ++ m) c := by
  induction hbc with
  | here => rwa [List.append_nil]
  | child _ hi ih => rw [← List.append_assoc]; exact ih.child hi

/-- a way down is empty, or goes to a child first -/
theorem cases_head {a m : α} {l : List ℕ} (h : L.Down a l m) :
    (l = [] ∧ m = a) ∨ ∃ i rest c, l = i :: rest ∧ (L.children a)[i]? = some c ∧ L.Down c rest m := by
  induction h with
  | here => exact Or.inl ⟨rfl, rfl⟩
  | child hp hi ih =>
    rename_i l p c i
    refine Or.inr ?_
    rcases ih with ⟨rfl, rfl⟩ | ⟨j, rest, b, rfl, hj, hb⟩
    · exact ⟨i, [], c, rfl, hi, Down.here⟩
    · exact ⟨j, rest ++ [i], b, rfl, hj, hb.child hi⟩

theorem nil_eq {a m : α} (h : L.Down a [] m) : m = a := by
  rcases h.cases_head with ⟨-, rfl⟩ | ⟨i, rest, c, hl, -⟩
  · rfl
  · cases hl

theorem above (hf : L.IsForest) {a m : α} {l : List ℕ} (h : L.Down a l m) : L.Above a m := by
  induction h with
  | here => exact Above.refl a
  | child _ hi ih => exact ih.trans (Above.of_parent ((hf.link _ _).1 (List.mem_of_getElem? hi)))

/-- an address leads to one value -/
theorem target_unique {a m m' : α} {l : List ℕ} (h : L.Down a l m) (h' : L.Down a l m') : m = m' := by
  induction h generalizing m' with
  | here => exact h'.nil_eq.symm
  | child _ hi ih =>
    generalize hl : _ ++ [_] = l' at h'
    cases h' with
    | here => simp at hl
    | child hp' hi' =>
      obtain ⟨rfl, h1⟩ := List.append_inj' hl rfl
      obtain rfl := List.singleton_inj.1 h1
      rw [ih hp', hi'] at hi
      exact (Option.some.inj hi).symm

/-- a value has one address below another -/
theorem unique (hf : L.IsForest) {a m : α} {l l' : List ℕ} (h : L.Down a l m) (h' : L.Down a l' m) : l = l' := by
  induction h generalizing l' with
  | here =>
    cases h' with
    | here => rfl
    | child hp hi =>
      have hpar := (hf.link _ _).1 (List.mem_of_getElem? hi)
      exact absurd (hp.above hf) (hf.not_above_parent hpar)
  | child hp hi ih =>
    have hpar := (hf.link _ _).1 (List.mem_of_getElem? hi)
    cases h' with
    | here => exact absurd (hp.above hf) (hf.not_above_parent hpar)
    | child hp' hi' =>
      have hpar' := (hf.link _ _).1 (List.mem_of_getElem? hi')
      rw [hpar] at hpar'
      obtain rfl := Option.some.inj hpar'
      obtain ⟨hlt, hget⟩ := List.getElem?_eq_some_iff.1 hi
      obtain ⟨hlt', hget'⟩ := List.getElem?_eq_some_iff.1 hi'
      rw [ih hp', (hf.nodup _).getElem_inj_iff.1 (hget.trans hget'.symm)]

end Down

theorem IsForest.index_of_parent (hf : L.IsForest) {c p : α} (h : L.parent c = some p) :
    ∃ i : ℕ, (L.children p)[i]? = some c :=
  List.mem_iff_getElem?.1 ((hf.link p c).2 h)

theorem IsForest.exists_down (hf : L.IsForest) {a m : α} (h : L.Above a m) : ∃ l, L.Down a l m := by
  induction h using Relation.ReflTransGen.head_induction_on with
  | refl => exact ⟨[], Down.here⟩
  | head hmb _ ih =>
    obtain ⟨l, hl⟩ := ih
    obtain ⟨i, hi⟩ := hf.index_of_parent hmb
    exact ⟨_, hl.child hi⟩

/-! ## The order of a depth-first walk -/

/-- a depth-first walk visits a value, then what lies below each of its children in turn -/
theorem visits_flatMap {walk : α → List α} (h : ∀ a, Visits L.children [a] (walk a)) (a : α) :
    walk a = a :: (L.children a).flatMap walk :=
  (h a).unique (Visits.single fun b _ => h b)

/-- **Document order is the order of addresses.** A depth-first walk from a visits the values below it in the
lexicographic order of their addresses. -/
theorem visits_sorted (hf : L.IsForest) {walk : α → List α} (h : ∀ a, Visits L.children [a] (walk a))
    (hacc : ∀ a, Acc (fun b a => b ∈ L.children a) a) (a : α) :
    (walk a).Pairwise fun x y => ∀ l m, L.Down a l x → L.Down a m y → l < m := by
  induction hacc a with
  | intro a _ ih =>
    have below : ∀ {c x}, x ∈ walk c → L.Above c x := fun {c x} hx => by
      obtain ⟨b, hb, hxb⟩ := (h c).from_stack (fun p c => (hf.link p c).1) x hx
      rwa [List.mem_singleton.1 hb] at hxb
    -- the address below a goes through the child
    have through : ∀ {i c x l}, (L.children a)[i]? = some c → x ∈ walk c → L.Down a l x →
        ∃ rest, l = i :: rest ∧ L.Down c rest x := fun {i c x l} hi hx hl => by
      obtain ⟨rest, hrest⟩ := hf.exists_down (below hx)
      exact ⟨rest, hl.unique hf ((Down.single hi).append hrest), hrest⟩
    rw [visits_flatMap h a, List.pairwise_cons]
    constructor
    · intro x hx l m hl hm
      obtain ⟨c, hc, hxc⟩ := List.mem_flatMap.1 hx
      obtain ⟨i, hi⟩ := List.mem_iff_getElem?.1 hc
      obtain ⟨rest, rfl, -⟩ := through hi hxc hm
      rw [hl.unique hf Down.here]
      exact List.nil_lt_cons i rest
    · refine List.pairwise_flatMap.2 ⟨fun c hc => ?_, ?_⟩
      · obtain ⟨i, hi⟩ := List.mem_iff_getElem?.1 hc
        refine (ih c hc).imp_of_mem fun {x y} hx hy hxy l m hl hm => ?_
        obtain ⟨rest, rfl, hrest⟩ := through hi hx hl
        obtain ⟨rest', rfl, hrest'⟩ := through hi hy hm
        exact List.cons_lt_cons_iff.2 (Or.inr ⟨rfl, hxy rest rest' hrest hrest'⟩)
      · refine List.pairwise_iff_getElem.2 fun i j hi hj hij x hx y hy l m hl hm => ?_
        obtain ⟨rest, rfl, -⟩ := through (List.getElem?_eq_getElem hi) hx hl
        obtain ⟨rest', rfl, -⟩ := through (List.getElem?_eq_getElem hj) hy hm
        exact List.cons_lt_cons_iff.2 (Or.inl hij)

end Links

/-- sorting values by a key gives the arrangement of them whose keys increase -/
theorem mergeSort_eq_of_perm {α β : Type} [LinearOrder β] (key : α → β) {l l' : List α} (hp : l.Perm l')
    (hs : l'.Pairwise fun a b => key a < key b) : (l.mergeSort fun a b => decide (key a ≤ key b)) = l' := by
  refine List.Perm.eq_of_pairwise (fun a b ha hb (hab : key a ≤ key b) (hba : key b ≤ key a) => ?_) ?_ (hs.imp fun h => h.le)
    ((List.mergeSort_perm _ _).trans hp)
  · by_contra hne
    have hkeys : l'.Pairwise fun a b => key a ≠ key b := hs.imp fun h => h.ne
    have : Std.Symm fun a b => key a ≠ key b := ⟨fun _ _ h => Ne.symm h⟩
    exact hkeys.forall (hp.subset ((List.mergeSort_perm _ _).subset ha)) hb hne (hab.antisymm hba)
  · refine (List.pairwise_mergeSort (fun a b c hab hbc => ?_) (fun a b => ?_) _).imp fun h => of_decide_eq_true h
    · exact decide_eq_true ((of_decide_eq_true hab).trans (of_decide_eq_true hbc))
    · rw [Bool.or_eq_true, decide_eq_true_iff, decide_eq_true_iff]
      exact le_total _ _

end Render.Core

/-! Places in an ordered tree, over no particular tree. Nothing here is about this repository.

A spot is an offset between the children of a node that the child indices of a path lead to. Spots are ordered as they are
met in a walk through the tree: offset o of a node comes before its child o and all that is below it, and after its child
o - 1 and all below that.

- `lt_append`: the order below a node is the order of the tree.
- `under A f`: move the spots below the path A by f; it keeps the order where f does (`under_le`).
- `removeAt`, `insertAt`, `moveBack`: where the spots of a node go when a child leaves it, children come in, and a child
  moves to an earlier place. -/

namespace Render.Core

/-- the child indices down to a node, and an offset between its children -/
structure Spot where
  path : List ℕ
  offset : ℕ
deriving DecidableEq, Repr

namespace Spot

/-- spots in the order of lists: children at odd, offsets at even numbers -/
def key (s : Spot) : List ℕ := s.path.map (2 * · + 1) ++ [2 * s.offset]

theorem key_injective : Function.Injective key := by
  rintro ⟨p, o⟩ ⟨q, o'⟩ h
  obtain ⟨hp, ho⟩ := List.append_inj' (show p.map (2 * · + 1) ++ [2 * o] = q.map (2 * · + 1) ++ [2 * o'] from h) rfl
  have hinj : Function.Injective fun i : ℕ => 2 * i + 1 := fun i j hij => by dsimp only at hij; omega
  obtain rfl := List.map_injective_iff.2 hinj hp
  simp only [List.cons.injEq, and_true] at ho
  obtain rfl : o = o' := by omega
  rfl

instance : LinearOrder Spot := LinearOrder.lift' key key_injective

theorem lt_iff {s t : Spot} : s < t ↔ key s < key t := Iff.rfl

@[simp] theorem nil_lt_nil {o o' : ℕ} : (⟨[], o⟩ : Spot) < ⟨[], o'⟩ ↔ o < o' := by
  rw [lt_iff]
  show [2 * o] < [2 * o'] ↔ _
  rw [List.cons_lt_cons_iff]
  simp only [List.not_lt_nil, and_false, or_false]
  omega

@[simp] theorem nil_lt_cons {o j o' : ℕ} {q : List ℕ} : (⟨[], o⟩ : Spot) < ⟨j :: q, o'⟩ ↔ o ≤ j := by
  rw [lt_iff]
  show [2 * o] < (2 * j + 1) :: (q.map (2 * · + 1) ++ [2 * o']) ↔ _
  rw [List.cons_lt_cons_iff]
  omega

@[simp] theorem cons_lt_nil {i o o' : ℕ} {p : List ℕ} : (⟨i :: p, o⟩ : Spot) < ⟨[], o'⟩ ↔ i < o' := by
  rw [lt_iff]
  show (2 * i + 1) :: (p.map (2 * · + 1) ++ [2 * o]) < [2 * o'] ↔ _
  rw [List.cons_lt_cons_iff]
  simp only [List.not_lt_nil, and_false, or_false]
  omega

@[simp] theorem cons_lt_cons {i j o o' : ℕ} {p q : List ℕ} :
    (⟨i :: p, o⟩ : Spot) < ⟨j :: q, o'⟩ ↔ i < j ∨ (i = j ∧ (⟨p, o⟩ : Spot) < ⟨q, o'⟩) := by
  rw [lt_iff, lt_iff]
  show (2 * i + 1) :: key ⟨p, o⟩ < (2 * j + 1) :: key ⟨q, o'⟩ ↔ _
  have hlt : 2 * i + 1 < 2 * j + 1 ↔ i < j := by omega
  have heq : 2 * i + 1 = 2 * j + 1 ↔ i = j := by omega
  rw [List.cons_lt_cons_iff, hlt, heq]

/-- a spot, seen from above the node at the end of the path -/
def below (A : List ℕ) (s : Spot) : Spot := ⟨A ++ s.path, s.offset⟩

@[simp] theorem below_nil (s : Spot) : below [] s = s := rfl

/-- the order below a node is the order of the tree -/
@[simp] theorem below_lt_below {A : List ℕ} {s t : Spot} : below A s < below A t ↔ s < t := by
  induction A with
  | nil => exact Iff.rfl
  | cons i A ih =>
    refine cons_lt_cons.trans ?_
    simp only [lt_self_iff_false, true_and, false_or]
    exact ih

/-! ## Moving spots below a path -/

end Spot

end Render.Core
