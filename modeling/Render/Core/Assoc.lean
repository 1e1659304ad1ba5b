/-
A map kept as a list of entries in no particular order, over any type of keys. Nothing here is about this repository.

No two entries have one key (`nodup`, a field). Writing a key puts its entry first, so statements about all entries are made
up to their order (`perm_of_get`, `set_entries`).
-/
import Mathlib.Data.List.MinMax
import Mathlib.Data.List.Nodup
import Mathlib.Data.List.Perm.Basic
import Mathlib.Tactic

namespace Render.Core

@[ext] structure Assoc (κ ν : Type) where
  entries : List (κ × ν)
  nodup : (entries.map Prod.fst).Nodup

namespace Assoc

variable {κ ν : Type} [DecidableEq κ]

def empty : Assoc κ ν := ⟨[], List.nodup_nil⟩

def get (m : Assoc κ ν) (k : κ) : Option ν := (m.entries.find? fun entry => entry.1 = k).map Prod.snd

def erase (m : Assoc κ ν) (k : κ) : Assoc κ ν where
  entries := m.entries.filter fun entry => entry.1 ≠ k
  nodup := m.nodup.sublist (List.filter_sublist.map _)

/-- the entries that are accepted -/
def retain (m : Assoc κ ν) (accept : κ → ν → Bool) : Assoc κ ν where
  entries := m.entries.filter fun entry => accept entry.1 entry.2
  nodup := m.nodup.sublist (List.filter_sublist.map _)

def set (m : Assoc κ ν) (k : κ) (v : ν) : Assoc κ ν where
  entries := (k, v) :: (m.erase k).entries
  nodup := by
    rw [List.map_cons, List.nodup_cons]
    refine ⟨?_, (m.erase k).nodup⟩
    intro hmem
    obtain ⟨entry, hentry, rfl⟩ := List.mem_map.1 hmem
    exact of_decide_eq_true (List.mem_filter.1 hentry).2 rfl

variable {m : Assoc κ ν} {k : κ} {v : ν}

theorem mem_erase {entry : κ × ν} : entry ∈ (m.erase k).entries ↔ entry ∈ m.entries ∧ entry.1 ≠ k := by
  rw [erase, List.mem_filter, decide_eq_true_eq]

theorem set_entries : (m.set k v).entries = (k, v) :: (m.erase k).entries := rfl

theorem get_eq_some : m.get k = some v ↔ (k, v) ∈ m.entries := by
  rw [get]
  constructor
  · intro h
    obtain ⟨entry, hfind, rfl⟩ := Option.map_eq_some_iff.1 h
    have hkey := List.find?_some hfind
    rw [decide_eq_true_eq] at hkey
    rw [← hkey]
    exact List.mem_of_find?_eq_some hfind
  · intro h
    cases hfind : m.entries.find? fun entry => entry.1 = k with
    | none =>
      have hnot := List.find?_eq_none.1 hfind (k, v) h
      exact absurd (decide_eq_true rfl) hnot
    | some entry =>
      have hkey := List.find?_some hfind
      rw [decide_eq_true_eq] at hkey
      have heq := List.inj_on_of_nodup_map m.nodup (List.mem_of_find?_eq_some hfind) h hkey
      rw [heq]
      rfl

theorem get_eq_none : m.get k = none ↔ ∀ v, (k, v) ∉ m.entries := by
  constructor
  · intro h v hmem
    rw [get_eq_some.2 hmem] at h
    cases h
  · intro h
    cases hget : m.get k with
    | none => rfl
    | some v => exact absurd (get_eq_some.1 hget) (h v)

theorem erase_of_get_none (h : m.get k = none) : (m.erase k).entries = m.entries := by
  rw [erase, List.filter_eq_self]
  intro entry hmem
  refine decide_eq_true ?_
  intro hkey
  exact get_eq_none.1 h entry.2 (hkey ▸ hmem)

/-- the entry of a key and those of the others -/
theorem perm_of_get (h : m.get k = some v) : m.entries.Perm ((k, v) :: (m.erase k).entries) := by
  have hsplit := List.filter_append_perm (fun entry : κ × ν => decide (entry.1 = k)) m.entries
  have hone : m.entries.filter (fun entry => decide (entry.1 = k)) = [(k, v)] := by
    have hnodup : (m.entries.filter fun entry => decide (entry.1 = k)).Nodup := (List.Nodup.of_map _ m.nodup).filter _
    refine List.perm_singleton.1 ((List.perm_ext_iff_of_nodup hnodup (List.nodup_singleton _)).2 ?_)
    intro entry
    rw [List.mem_filter, decide_eq_true_eq, List.mem_singleton]
    constructor
    · intro hin
      exact List.inj_on_of_nodup_map m.nodup hin.1 (get_eq_some.1 h) hin.2
    · intro heq
      rw [heq]
      exact ⟨get_eq_some.1 h, rfl⟩
  have hrest : m.entries.filter (fun entry => !decide (entry.1 = k)) = (m.erase k).entries := by
    refine List.filter_congr ?_
    intro entry _
    simp
  rw [hone, hrest] at hsplit
  exact hsplit.symm

theorem get_set : (m.set k v).get k = some v := get_eq_some.2 List.mem_cons_self

theorem get_set_of_ne {l : κ} (h : l ≠ k) : (m.set k v).get l = m.get l := by
  refine Option.ext fun w => ?_
  rw [get_eq_some, get_eq_some, set_entries, List.mem_cons, mem_erase]
  constructor
  · intro hmem
    rcases hmem with heq | hmem
    · exact absurd (congrArg Prod.fst heq) h
    · exact hmem.1
  · intro hmem
    exact Or.inr ⟨hmem, h⟩

theorem get_erase : (m.erase k).get k = none := get_eq_none.2 fun _ hmem => (mem_erase.1 hmem).2 rfl

theorem get_erase_of_ne {l : κ} (h : l ≠ k) : (m.erase k).get l = m.get l := by
  refine Option.ext fun w => ?_
  rw [get_eq_some, get_eq_some, mem_erase]
  exact and_iff_left h

/-! ## Lists under the keys -/

/-- the elements of all lists -/
def flat {α : Type} (m : Assoc κ (List α)) : List α := m.entries.flatMap Prod.snd

variable {α : Type} {lists : Assoc κ (List α)} {l : List α} {a : α}

theorem mem_flat : a ∈ lists.flat ↔ ∃ k l, lists.get k = some l ∧ a ∈ l := by
  rw [flat, List.mem_flatMap]
  constructor
  · intro h
    obtain ⟨entry, hmem, ha⟩ := h
    exact ⟨entry.1, entry.2, get_eq_some.2 hmem, ha⟩
  · intro h
    obtain ⟨k, l, hget, ha⟩ := h
    exact ⟨(k, l), get_eq_some.1 hget, ha⟩

theorem flat_set : (lists.set k l).flat = l ++ (lists.erase k).flat := by
  rw [flat, set_entries, List.flatMap_cons]
  rfl

theorem flat_perm (h : lists.get k = some l) : lists.flat.Perm (l ++ (lists.erase k).flat) := by
  rw [← flat_set, flat, flat, set_entries]
  exact (perm_of_get h).flatMap_right _

theorem flat_erase_of_get_none (h : lists.get k = none) : (lists.erase k).flat = lists.flat := by
  rw [flat, erase_of_get_none h, flat]

end Assoc

end Render.Core

/-! Replacing by key, one value after the other. Nothing here is about this repository.

`replaceKey key l a` takes the values of l with the key of a away and puts a where the first of them was, or at the end. In a
loop over several values a later one takes an earlier one of its key away again: of the values of one key the last is left
(`filter_foldl_last`), and the values of other keys stay (`filter_foldl_other`). So the loop leaves all values of each key
exactly where no key comes twice (`foldl_replaceKey_iff`). -/

namespace Render.Core

variable {α κ : Type} [DecidableEq κ] (key : α → κ)

def replaceKey (l : List α) (a : α) : List α :=
  let others := l.filter fun x => key x ≠ key a
  match l.findIdx? fun x => key x = key a with
  | some index => others.insertIdx index a
  | none => others ++ [a]

theorem filter_insertIdx (p : α → Bool) {l : List α} {i : ℕ} (hi : i ≤ l.length) (a : α) :
    (l.insertIdx i a).filter p = (l.take i).filter p ++ [a].filter p ++ (l.drop i).filter p := by
  have hsplit : l.insertIdx i a = l.take i ++ [a] ++ l.drop i := by
    induction l generalizing i with
    | nil =>
      obtain rfl := Nat.le_zero.1 hi
      rfl
    | cons x l ih =>
      cases i with
      | zero => rfl
      | succ i => simpa using ih (Nat.le_of_succ_le_succ hi)
  rw [hsplit, List.filter_append, List.filter_append]

/-- what stands before the first value with a key has other keys -/
theorem findIdx?_le_length_filter {p : α → Bool} {l : List α} {i : ℕ} (h : l.findIdx? p = some i) :
    i ≤ (l.filter fun x => !p x).length := by
  obtain ⟨hi, -, hbefore⟩ := List.findIdx?_eq_some_iff_getElem.1 h
  have hall : ∀ x ∈ l.take i, (!p x) = true := by
    intro x hx
    obtain ⟨j, hj, rfl⟩ := List.mem_iff_getElem.1 hx
    rw [List.length_take] at hj
    rw [List.getElem_take]
    simpa using hbefore j (by omega)
  calc i = (l.take i).length := by rw [List.length_take]; omega
    _ = ((l.take i).filter fun x => !p x).length := by rw [List.filter_eq_self.2 hall]
    _ ≤ (l.filter fun x => !p x).length := ((List.take_sublist i l).filter _).length_le

/-- filtering after a value is put in -/
theorem filter_replaceKey (p : α → Bool) (l : List α) (a : α) : ∃ before after,
    before ++ after = l.filter (fun x => key x ≠ key a) ∧
      (replaceKey key l a).filter p = before.filter p ++ [a].filter p ++ after.filter p := by
  unfold replaceKey
  cases hindex : l.findIdx? fun x => key x = key a with
  | none =>
    refine ⟨_, [], List.append_nil _, ?_⟩
    rw [List.filter_append, List.filter_nil, List.append_nil]
  | some index =>
    have hle := findIdx?_le_length_filter hindex
    simp only [← decide_not] at hle
    exact ⟨_, _, List.take_append_drop index _, filter_insertIdx p hle a⟩

theorem filter_replaceKey_self (l : List α) (a : α) : (replaceKey key l a).filter (fun x => key x = key a) = [a] := by
  obtain ⟨before, after, hsplit, hfilter⟩ := filter_replaceKey key (fun x => key x = key a) l a
  have hnone : ∀ x ∈ before ++ after, ¬ key x = key a := by
    intro x hx
    rw [hsplit] at hx
    simpa using (List.mem_filter.1 hx).2
  have hbefore : before.filter (fun x => key x = key a) = [] :=
    List.filter_eq_nil_iff.2 fun x hx => by simpa using hnone x (List.mem_append_left _ hx)
  have hafter : after.filter (fun x => key x = key a) = [] :=
    List.filter_eq_nil_iff.2 fun x hx => by simpa using hnone x (List.mem_append_right _ hx)
  rw [hfilter, hbefore, hafter]
  simp

theorem filter_replaceKey_other {p : α → Bool} {a : α} (hp : ∀ x, key x = key a → p x = false) (l : List α) :
    (replaceKey key l a).filter p = l.filter p := by
  obtain ⟨before, after, hsplit, hfilter⟩ := filter_replaceKey key p l a
  have hsame : (l.filter fun x => key x ≠ key a).filter p = l.filter p := by
    rw [List.filter_filter]
    refine List.filter_congr fun x _ => ?_
    by_cases hx : key x = key a
    · simp [hx, hp x hx]
    · simp [hx]
  rw [hfilter, ← hsame, ← hsplit, List.filter_append]
  simp [hp a rfl]

/-- the values of other keys stay -/
theorem filter_foldl_other {p : α → Bool} {us : List α} (hp : ∀ u ∈ us, ∀ x, key x = key u → p x = false) (l : List α) :
    (us.foldl (replaceKey key) l).filter p = l.filter p := by
  induction us generalizing l with
  | nil => rfl
  | cons u us ih =>
    rw [List.foldl_cons, ih fun v hv => hp v (List.mem_cons_of_mem u hv)]
    exact filter_replaceKey_other key (hp u List.mem_cons_self) l

/-- of the values of one key the last is left -/
theorem filter_foldl_last {before after : List α} {a : α} (hafter : ∀ u ∈ after, key u ≠ key a) (l : List α) :
    ((before ++ a :: after).foldl (replaceKey key) l).filter (fun x => key x = key a) = [a] := by
  have hother : ∀ u ∈ after, ∀ x, key x = key u → decide (key x = key a) = false := by
    intro u hu x hx
    rw [hx]
    simpa using hafter u hu
  rw [List.foldl_append, List.foldl_cons, filter_foldl_other key hother, filter_replaceKey_self]

/-- the last value with a key -/
theorem exists_last {us : List α} {a : α} (ha : a ∈ us) :
    ∃ before b after, us = before ++ b :: after ∧ key b = key a ∧ ∀ u ∈ after, key u ≠ key a := by
  induction us using List.reverseRecOn with
  | nil => cases ha
  | append_singleton us u ih =>
    by_cases hu : key u = key a
    · exact ⟨us, u, [], rfl, hu, fun v hv => absurd hv List.not_mem_nil⟩
    · have hmem : a ∈ us := by
        rcases List.mem_append.1 ha with hmem | hmem
        · exact hmem
        · exact absurd (congrArg key (List.mem_singleton.1 hmem)).symm hu
      obtain ⟨before, b, after, hsplit, hb, hafter⟩ := ih hmem
      refine ⟨before, b, after ++ [u], by rw [hsplit]; simp, hb, fun v hv => ?_⟩
      rcases List.mem_append.1 hv with hv | hv
      · exact hafter v hv
      · rwa [List.mem_singleton.1 hv]

/-- **Replacing in a loop** leaves all the values of each key exactly when no key comes twice. -/
theorem foldl_replaceKey_iff (us l : List α) :
    (∀ a ∈ us, (us.foldl (replaceKey key) l).filter (fun x => key x = key a) = us.filter fun x => key x = key a) ↔
      us.Pairwise fun a b => key a ≠ key b := by
  constructor
  · intro h
    refine List.pairwise_iff_forall_sublist.2 fun {a b} hsub hkey => ?_
    obtain ⟨before, c, after, hsplit, hc, hafter⟩ := exists_last key (hsub.subset List.mem_cons_self)
    rw [← hc] at hafter
    have hone := @filter_foldl_last α κ _ key before after c hafter l
    rw [← hsplit, hc, h a (hsub.subset List.mem_cons_self)] at hone
    have hboth : [a, b].filter (fun x => key x = key a) = [a, b] := by simp [← hkey]
    have hlength := (hsub.filter fun x => key x = key a).length_le
    rw [hone, hboth] at hlength
    exact absurd hlength (by simp)
  · intro h a ha
    obtain ⟨before, after, hsplit⟩ := List.append_of_mem ha
    rw [hsplit, List.pairwise_append] at h
    obtain ⟨-, hafter, hbefore⟩ := h
    have hlater : ∀ u ∈ after, key u ≠ key a := fun u hu => ((List.pairwise_cons.1 hafter).1 u hu).symm
    have hearlier : ∀ u ∈ before, key u ≠ key a := fun u hu => hbefore u hu a List.mem_cons_self
    rw [hsplit, filter_foldl_last key hlater, List.filter_append, List.filter_cons_of_pos (by simp),
      List.filter_eq_nil_iff.2 fun u hu => by simpa using hearlier u hu,
      List.filter_eq_nil_iff.2 fun u hu => by simpa using hlater u hu]
    rfl

end Render.Core

/-! Which element of a list a search for the greatest returns. Nothing here is about this repository.

`List.argmin` and `List.argmax` return the first of equal elements; `lastMax` returns the last of equal ones. -/

namespace Render.Core

variable {α β : Type} [LinearOrder β]

/-- the last of the elements with the greatest value -/
def lastMax (f : α → β) (l : List α) : Option α := l.reverse.argmax f

variable {f : α → β} {a : α} {l : List α}

theorem lastMax_cons : lastMax f (a :: l) = match lastMax f l with
    | none => some a
    | some b => if f b < f a then some a else some b := by
  rw [lastMax, List.reverse_cons, List.argmax_concat, lastMax]
  cases List.argmax f l.reverse with
  | none => rfl
  | some b => rfl

theorem lastMax_eq_none : lastMax f l = none ↔ l = [] := by
  rw [lastMax, List.argmax_eq_none, List.reverse_eq_nil_iff]

/-- no element before it is greater, and those behind it are smaller -/
theorem lastMax_eq_some (h : lastMax f l = some a) :
    ∃ before after, l = before ++ a :: after ∧ (∀ b ∈ before, f b ≤ f a) ∧ ∀ b ∈ after, f b < f a := by
  induction l with
  | nil => cases h
  | cons c l ih =>
    rw [lastMax_cons] at h
    cases hl : lastMax f l with
    | none =>
      rw [hl] at h
      cases h
      rw [lastMax_eq_none.1 hl]
      exact ⟨[], [], rfl, by simp, by simp⟩
    | some b =>
      rw [hl] at h
      replace h : (if f b < f c then some c else some b) = some a := h
      split_ifs at h with hlt
      · cases h
        refine ⟨[], l, rfl, by simp, ?_⟩
        intro d hd
        exact (List.le_of_mem_argmax (List.mem_reverse.2 hd) hl).trans_lt hlt
      · cases h
        obtain ⟨before, after, rfl, hbefore, hafter⟩ := ih hl
        refine ⟨c :: before, after, rfl, ?_, hafter⟩
        intro d hd
        cases hd with
        | head => exact le_of_not_gt hlt
        | tail _ hd => exact hbefore d hd

theorem lastMax_mem (h : lastMax f l = some a) : a ∈ l := List.mem_reverse.1 (List.argmax_mem h)

/-- an element is found when nothing before it is greater and those behind it are smaller -/
theorem lastMax_append {before after : List α} (hbefore : ∀ b ∈ before, f b ≤ f a) (hafter : ∀ b ∈ after, f b < f a) :
    lastMax f (before ++ a :: after) = some a := by
  cases hl : lastMax f (before ++ a :: after) with
  | none => simp [lastMax_eq_none] at hl
  | some b =>
    have hle : f a ≤ f b := List.le_of_mem_argmax (by simp) hl
    obtain ⟨before', after', heq, hbefore', hafter'⟩ := lastMax_eq_some hl
    rcases List.append_eq_append_iff.1 heq with ⟨mid, rfl, hmid⟩ | ⟨mid, rfl, hmid⟩
    · cases mid with
      | nil => cases hmid; rfl
      | cons c mid =>
        cases hmid
        exact absurd hle (hafter b (by simp)).not_ge
    · cases mid with
      | nil => cases hmid; rfl
      | cons c mid =>
        cases hmid
        exact absurd (hbefore b (by simp)) (hafter' a (by simp)).not_ge

end Render.Core
