/-
A map that is kept in the order of its keys, over any linear order. Nothing here is about this repository.

The entries are a list whose keys go up (`sorted`, a field), so a map never holds a key twice. `insert` replaces what it
finds under the key, `popFirst` takes the entry with the smallest key, `retain` keeps the entries that a predicate accepts.
-/
import Mathlib.Order.RelClasses
import Mathlib.Order.Lattice
import Mathlib.Data.List.Nodup

namespace Render.Core

/-- entries in the order of their keys -/
structure SortedMap (κ ν : Type) [LinearOrder κ] where
  entries : List (κ × ν)
  sorted : entries.Pairwise fun a b => a.1 < b.1

namespace SortedMap

variable {κ ν : Type} [LinearOrder κ]

@[ext] theorem ext {m n : SortedMap κ ν} (h : m.entries = n.entries) : m = n := by
  cases m
  cases n
  cases h
  rfl

def empty : SortedMap κ ν := ⟨[], List.Pairwise.nil⟩

/-- the number of entries -/
def size (m : SortedMap κ ν) : ℕ := m.entries.length

def values (m : SortedMap κ ν) : List ν := m.entries.map Prod.snd

/-- the entries that are accepted -/
def retain (m : SortedMap κ ν) (accept : κ → ν → Bool) : SortedMap κ ν where
  entries := m.entries.filter fun entry => accept entry.1 entry.2
  sorted := m.sorted.filter _

def erase (m : SortedMap κ ν) (k : κ) : SortedMap κ ν := m.retain fun k' _ => k' ≠ k

def insert (m : SortedMap κ ν) (k : κ) (v : ν) : SortedMap κ ν where
  entries := m.entries.filter (fun entry => entry.1 < k) ++ (k, v) :: m.entries.filter fun entry => k < entry.1
  sorted := by
    refine List.pairwise_append.2 ⟨m.sorted.filter _, List.pairwise_cons.2 ⟨?_, m.sorted.filter _⟩, ?_⟩
    · intro entry hmem
      exact of_decide_eq_true (List.mem_filter.1 hmem).2
    · intro a ha b hb
      have hless : a.1 < k := of_decide_eq_true (List.mem_filter.1 ha).2
      rcases List.mem_cons.1 hb with rfl | hb
      · exact hless
      · exact hless.trans (of_decide_eq_true (List.mem_filter.1 hb).2)

/-- the entry with the smallest key, and the rest -/
def popFirst (m : SortedMap κ ν) : Option ((κ × ν) × SortedMap κ ν) :=
  match m with
  | ⟨[], _⟩ => none
  | ⟨entry :: rest, sorted⟩ => some (entry, ⟨rest, (List.pairwise_cons.1 sorted).2⟩)

def contains (m : SortedMap κ ν) (k : κ) : Bool := m.entries.any fun entry => entry.1 = k

/-- the value under a key -/
def get (m : SortedMap κ ν) (k : κ) : Option ν := (m.entries.find? fun entry => entry.1 = k).map Prod.snd

def keys (m : SortedMap κ ν) : List κ := m.entries.map Prod.fst

/-! ## Entries -/

variable {m : SortedMap κ ν} {k : κ} {v : ν}

theorem mem_retain {accept : κ → ν → Bool} {entry : κ × ν} :
    entry ∈ (m.retain accept).entries ↔ entry ∈ m.entries ∧ accept entry.1 entry.2 = true := List.mem_filter

theorem mem_erase {entry : κ × ν} : entry ∈ (m.erase k).entries ↔ entry ∈ m.entries ∧ entry.1 ≠ k := by
  rw [erase, mem_retain, decide_eq_true_eq]

theorem mem_insert {entry : κ × ν} :
    entry ∈ (m.insert k v).entries ↔ entry = (k, v) ∨ (entry ∈ m.entries ∧ entry.1 ≠ k) := by
  have hne : entry.1 ≠ k ↔ entry.1 < k ∨ k < entry.1 := lt_or_lt_iff_ne.symm
  simp only [insert, List.mem_append, List.mem_cons, List.mem_filter, decide_eq_true_eq, hne]
  tauto

theorem contains_iff : m.contains k = true ↔ ∃ v, (k, v) ∈ m.entries := by
  rw [contains, List.any_eq_true]
  constructor
  · intro h
    obtain ⟨⟨k', v⟩, hmem, heq⟩ := h
    rw [decide_eq_true_eq] at heq
    exact ⟨v, heq ▸ hmem⟩
  · intro h
    obtain ⟨v, hmem⟩ := h
    exact ⟨(k, v), hmem, decide_eq_true rfl⟩

/-- a key has one value -/
theorem value_unique {v' : ν} (h : (k, v) ∈ m.entries) (h' : (k, v') ∈ m.entries) : v = v' := by
  have hkeys : (m.entries.map Prod.fst).Nodup := List.pairwise_map.2 (m.sorted.imp fun hless => hless.ne)
  exact (Prod.mk.inj (List.inj_on_of_nodup_map hkeys h h' rfl)).2

theorem get_eq_some : m.get k = some v ↔ (k, v) ∈ m.entries := by
  rw [get, Option.map_eq_some_iff]
  constructor
  · rintro ⟨⟨k', v'⟩, hfind, rfl⟩
    have hkey : k' = k := by simpa using List.find?_some hfind
    rw [← hkey]
    exact List.mem_of_find?_eq_some hfind
  · intro hmem
    cases hfind : m.entries.find? fun entry => entry.1 = k with
    | none =>
      have hnone := List.find?_eq_none.1 hfind (k, v) hmem
      simp at hnone
    | some entry =>
      have hkey : entry.1 = k := by simpa using List.find?_some hfind
      have hentry : (k, entry.2) ∈ m.entries := by
        rw [← hkey]
        exact List.mem_of_find?_eq_some hfind
      exact ⟨entry, rfl, value_unique hentry hmem⟩

theorem get_insert_self : (m.insert k v).get k = some v := get_eq_some.2 (mem_insert.2 (.inl rfl))

theorem get_insert_ne {k' : κ} (h : k' ≠ k) : (m.insert k v).get k' = m.get k' := by
  refine Option.ext fun v' => ?_
  rw [get_eq_some, get_eq_some, mem_insert]
  constructor
  · rintro (heq | ⟨hmem, -⟩)
    · exact absurd (Prod.mk.inj heq).1 h
    · exact hmem
  · intro hmem
    exact .inr ⟨hmem, h⟩

theorem get_erase_self : (m.erase k).get k = none := by
  rw [Option.eq_none_iff_forall_ne_some]
  intro v hv
  exact (mem_erase.1 (get_eq_some.1 hv)).2 rfl

theorem get_erase_ne {k' : κ} (h : k' ≠ k) : (m.erase k).get k' = m.get k' := by
  refine Option.ext fun v' => ?_
  rw [get_eq_some, get_eq_some, mem_erase]
  exact and_iff_left h

theorem get_empty : (empty : SortedMap κ ν).get k = none := rfl

/-- a map is what it has under the keys -/
theorem ext_get {n : SortedMap κ ν} (h : ∀ k, m.get k = n.get k) : m = n := by
  have hmem (entry : κ × ν) : entry ∈ m.entries ↔ entry ∈ n.entries := by
    rw [← Prod.eta entry, ← get_eq_some, h, get_eq_some]
  have hnodup (m : SortedMap κ ν) : m.entries.Nodup := m.sorted.imp fun hless heq => (heq ▸ hless).ne rfl
  refine ext (List.Perm.eq_of_pairwise (fun a b _ _ hab hba => absurd hba hab.not_gt) m.sorted n.sorted ?_)
  exact (List.perm_ext_iff_of_nodup (hnodup m) (hnodup n)).2 hmem

theorem get_retain {accept : κ → ν → Bool} : (m.retain accept).get k = (m.get k).filter (accept k) := by
  refine Option.ext fun v => ?_
  rw [get_eq_some, mem_retain, Option.filter_eq_some_iff, get_eq_some]

theorem contains_eq_isSome : m.contains k = (m.get k).isSome := by
  rw [Bool.eq_iff_iff, contains_iff, Option.isSome_iff_exists]
  exact exists_congr fun v => get_eq_some.symm

theorem keys_nodup : m.keys.Nodup := List.pairwise_map.2 (m.sorted.imp fun hless => hless.ne)

theorem mem_keys : k ∈ m.keys ↔ ∃ v, m.get k = some v := by
  simp only [keys, List.mem_map, get_eq_some]
  constructor
  · rintro ⟨⟨k', v⟩, hmem, rfl⟩
    exact ⟨v, hmem⟩
  · rintro ⟨v, hmem⟩
    exact ⟨(k, v), hmem, rfl⟩

theorem popFirst_eq_some {entry : κ × ν} {rest : SortedMap κ ν} :
    m.popFirst = some (entry, rest) ↔ m.entries = entry :: rest.entries := by
  obtain ⟨entries, sorted⟩ := m
  cases entries with
  | nil => simp [popFirst]
  | cons first others =>
    simp only [popFirst, Option.some.injEq, Prod.mk.injEq, List.cons.injEq]
    refine and_congr_right fun _ => ?_
    constructor
    · intro h
      rw [← h]
    · intro h
      exact ext h

theorem popFirst_eq_none : m.popFirst = none ↔ m.entries = [] := by
  obtain ⟨entries, sorted⟩ := m
  cases entries <;> simp [popFirst]

/-- a new key only adds its entry -/
theorem insert_perm (h : ∀ entry ∈ m.entries, entry.1 ≠ k) : (m.insert k v).entries.Perm ((k, v) :: m.entries) := by
  have hgreater : m.entries.filter (fun entry => k < entry.1) = m.entries.filter fun entry => !decide (entry.1 < k) := by
    refine List.filter_congr ?_
    intro entry hmem
    have hne := (h entry hmem).symm
    rw [← decide_not, decide_eq_decide, not_lt]
    exact ⟨le_of_lt, fun hle => lt_of_le_of_ne hle hne⟩
  have hsplit := List.filter_append_perm (fun entry : κ × ν => decide (entry.1 < k)) m.entries
  rw [← hgreater] at hsplit
  exact List.perm_middle.trans (hsplit.cons _)

theorem size_retain_le (accept : κ → ν → Bool) : (m.retain accept).size ≤ m.size := List.length_filter_le _ _

/-- a new entry, or one that replaces another -/
theorem size_insert_le : (m.insert k v).size ≤ m.size + 1 := by
  have hgreater : (m.entries.filter fun entry => k < entry.1).length ≤
      (m.entries.filter fun entry => !decide (entry.1 < k)).length := by
    refine List.Sublist.length_le (List.monotone_filter_right _ ?_)
    intro entry hless
    simpa using (of_decide_eq_true hless).le
  have hsplit := List.length_eq_length_filter_add (fun entry : κ × ν => decide (entry.1 < k)) (l := m.entries)
  simp only [size, insert, List.length_append, List.length_cons]
  omega

theorem mem_keys_insert {a : κ} : a ∈ (m.insert k v).keys ↔ a = k ∨ a ∈ m.keys := by
  rw [mem_keys, mem_keys]
  by_cases hkey : a = k
  · rw [hkey, get_insert_self]
    exact ⟨fun _ => .inl rfl, fun _ => ⟨v, rfl⟩⟩
  · rw [get_insert_ne hkey]
    exact (or_iff_right hkey).symm

theorem length_keys : m.keys.length = m.size := List.length_map _

/-- an entry that replaces another -/
theorem size_insert_of_contains (h : m.contains k = true) : (m.insert k v).size = m.size := by
  have hmem : k ∈ m.keys := by
    obtain ⟨v', hentry⟩ := contains_iff.1 h
    exact List.mem_map_of_mem hentry
  rw [← length_keys, ← length_keys]
  refine List.Perm.length_eq ((List.perm_ext_iff_of_nodup keys_nodup keys_nodup).2 fun a => ?_)
  rw [mem_keys_insert]
  exact or_iff_right_of_imp fun heq => heq ▸ hmem

/-- the last key -/
theorem insert_last (h : ∀ entry ∈ m.entries, entry.1 < k) : (m.insert k v).entries = m.entries ++ [(k, v)] := by
  have hless : m.entries.filter (fun entry => entry.1 < k) = m.entries :=
    List.filter_eq_self.2 fun entry hmem => decide_eq_true (h entry hmem)
  have hgreater : m.entries.filter (fun entry => k < entry.1) = [] :=
    List.filter_eq_nil_iff.2 fun entry hmem => by simpa using (h entry hmem).le
  simp only [insert, hless, hgreater]

/-! ## Inserting one after the other -/

/-- the entries of a list are inserted in turn -/
def insertAll (m : SortedMap κ ν) (entries : List (κ × ν)) : SortedMap κ ν :=
  entries.foldl (fun m entry => m.insert entry.1 entry.2) m

/-- entries in the order of their keys are added as they are -/
theorem insertAll_sorted {entries : List (κ × ν)} (h : (m.entries ++ entries).Pairwise fun a b => a.1 < b.1) :
    (m.insertAll entries).entries = m.entries ++ entries := by
  induction entries generalizing m with
  | nil => exact (List.append_nil _).symm
  | cons entry rest ih =>
    have hlast : (m.insert entry.1 entry.2).entries = m.entries ++ [entry] :=
      insert_last fun other hmem => (List.pairwise_append.1 h).2.2 other hmem entry List.mem_cons_self
    have hshift : (m.insert entry.1 entry.2).entries ++ rest = m.entries ++ entry :: rest := by
      rw [hlast, List.append_assoc]
      rfl
    rw [← hshift] at h ⊢
    exact ih h

/-- the last value under a key in a list of entries, or what was found before -/
def lastValue (k : κ) (entries : List (κ × ν)) (found : Option ν) : Option ν :=
  entries.foldl (fun found entry => if entry.1 = k then some entry.2 else found) found

/-- under a key is what was inserted last -/
theorem get_insertAll (entries : List (κ × ν)) (k : κ) : (m.insertAll entries).get k = lastValue k entries (m.get k) := by
  induction entries generalizing m with
  | nil => rfl
  | cons entry rest ih =>
    have hget : (m.insert entry.1 entry.2).get k = if entry.1 = k then some entry.2 else m.get k := by
      split_ifs with hkey
      · rw [← hkey, get_insert_self]
      · exact get_insert_ne (Ne.symm hkey)
    rw [lastValue, List.foldl_cons, ← hget]
    exact ih

theorem lastValue_or (entries : List (κ × ν)) (k : κ) (found : Option ν) :
    lastValue k entries found = (lastValue k entries none).or found := by
  induction entries generalizing found with
  | nil => rfl
  | cons entry rest ih =>
    have hcons (found : Option ν) : lastValue k (entry :: rest) found =
        lastValue k rest (if entry.1 = k then some entry.2 else found) := rfl
    rw [hcons, hcons, ih, ih (if entry.1 = k then some entry.2 else none), Option.or_assoc]
    split_ifs <;> rfl

theorem insertAll_entries (m : SortedMap κ ν) : empty.insertAll m.entries = m :=
  ext (insertAll_sorted m.sorted)

/-- the entries of another map replace what there is under their keys -/
theorem get_insertAll_entries (n : SortedMap κ ν) (k : κ) : (m.insertAll n.entries).get k = (n.get k).or (m.get k) := by
  have hown : n.get k = lastValue k n.entries none := by
    have hget := get_insertAll n.entries k (m := (empty : SortedMap κ ν))
    rwa [insertAll_entries] at hget
  rw [get_insertAll, lastValue_or, ← hown]

end SortedMap

end Render.Core
