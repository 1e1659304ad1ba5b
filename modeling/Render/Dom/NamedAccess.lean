/-
Named access (`render-dom/src/named.rs`) on a reachable DOM: the incremental index against a walk of the tree.

- `Indexed stale d`: the index holds every element under exactly the keys it carries, except that it holds no element of
  `stale`. An attribute write makes its element stale, changes it, and indexes it again; a clone and a graft start with
  stale elements, since new elements are not in the index.
- `namedElements_walk`: what `named_elements` and `named_keys` answer.
-/
import Render.Dom.Order
import Render.Dom.ShadowTree

namespace Render

open Render.Core Render.Core.Comp

/-- the elements the index holds under a key -/
def NamedIndex.carriers (index : NamedIndex) (key : String) : List NodeId := (index.keys[key]?).getD []

/-- the keys of a kind: none outside elements -/
def kindKeys : NodeKind → List String
  | .element data => elementKeys data
  | _ => []

namespace Dom

variable {d d' : Dom}

/-! ## One element in the index -/

theorem carriers_indexKey (index : NamedIndex) (n : NodeId) (key key' : String) :
    (indexKey index n key).carriers key' =
      if key = key' then (if n ∈ index.carriers key then index.carriers key else index.carriers key ++ [n])
      else index.carriers key' := by
  unfold indexKey NamedIndex.carriers
  rw [Std.TreeMap.getElem?_insert]
  by_cases h : key = key'
  · subst h; simp
  · simp [h]

theorem carriers_unindexKey (index : NamedIndex) (n : NodeId) (key key' : String) :
    (unindexKey index n key).carriers key' =
      if key = key' then (index.carriers key).filter (· ≠ n) else index.carriers key' := by
  unfold unindexKey NamedIndex.carriers
  cases hk : index.keys[key]? with
  | none =>
    by_cases h : key = key'
    · subst h; simp [hk]
    · simp [h]
  | some nodes =>
    dsimp only
    rw [Option.getD_some]
    by_cases hempty : (nodes.filter (· ≠ n)).isEmpty
    · rw [if_pos hempty, Std.TreeMap.getElem?_erase, List.isEmpty_iff.1 hempty]
      by_cases h : key = key' <;> simp [h]
    · rw [if_neg hempty, Std.TreeMap.getElem?_insert]
      by_cases h : key = key' <;> simp [h]

/-- indexing under some keys adds the element under exactly these -/
theorem mem_carriers_index (keys : List String) (index : NamedIndex) (n m : NodeId) (key : String) :
    m ∈ (keys.foldl (fun index key => indexKey index n key) index).carriers key ↔
      m ∈ index.carriers key ∨ (m = n ∧ key ∈ keys) := by
  induction keys generalizing index with
  | nil => simp
  | cons k keys ih =>
    rw [List.foldl_cons, ih, carriers_indexKey]
    by_cases h : k = key
    · subst h
      by_cases hn : n ∈ index.carriers k
      · rw [if_pos rfl, if_pos hn]
        constructor
        · rintro (hm | ⟨rfl, -⟩)
          · exact Or.inl hm
          · exact Or.inl hn
        · rintro (hm | ⟨rfl, -⟩)
          · exact Or.inl hm
          · exact Or.inl hn
      · rw [if_pos rfl, if_neg hn]
        simp only [List.mem_append, List.mem_cons, true_or, and_true]
        tauto
    · rw [if_neg h]
      simp [Ne.symm h]

theorem mem_carriers_unindex (keys : List String) (index : NamedIndex) (n m : NodeId) (key : String) :
    m ∈ (keys.foldl (fun index key => unindexKey index n key) index).carriers key ↔
      m ∈ index.carriers key ∧ ¬ (m = n ∧ key ∈ keys) := by
  induction keys generalizing index with
  | nil => simp
  | cons k keys ih =>
    rw [List.foldl_cons, ih, carriers_unindexKey]
    by_cases h : k = key
    · subst h
      simp only [if_true, List.mem_filter, decide_eq_true_eq, List.mem_cons, true_or, and_true]
      tauto
    · rw [if_neg h]
      simp [Ne.symm h]

theorem nodup_carriers_index (keys : List String) (index : NamedIndex) (n : NodeId)
    (h : ∀ key, (index.carriers key).Nodup) (key : String) :
    ((keys.foldl (fun index key => indexKey index n key) index).carriers key).Nodup := by
  induction keys generalizing index with
  | nil => exact h key
  | cons k keys ih =>
    refine ih _ fun key => ?_
    rw [carriers_indexKey]
    split_ifs with hk hn
    · exact h k
    · refine List.nodup_append.2 ⟨h k, List.nodup_singleton n, fun a ha b hb hab => hn ?_⟩
      rwa [← List.mem_singleton.1 hb, ← hab]
    · exact h key

theorem nodup_carriers_unindex (keys : List String) (index : NamedIndex) (n : NodeId)
    (h : ∀ key, (index.carriers key).Nodup) (key : String) :
    ((keys.foldl (fun index key => unindexKey index n key) index).carriers key).Nodup := by
  induction keys generalizing index with
  | nil => exact h key
  | cons k keys ih =>
    refine ih _ fun key => ?_
    rw [carriers_unindexKey]
    split_ifs
    · exact (h k).filter _
    · exact h key

/-! ## The index of a DOM -/

theorem namedKeysOf_eq_reading (n : NodeId) : d.namedKeysOf n = d.reading kindKeys [] n := by
  unfold namedKeysOf elementOf reading
  cases d.kindOf n with
  | none => rfl
  | some kind => cases kind <;> rfl

/-- the index holds every element under exactly the keys it carries, and no element of `stale` -/
structure Indexed (stale : Set NodeId) (d : Dom) : Prop where
  mem : ∀ n key, n ∈ d.named.carriers key ↔ n ∉ stale ∧ key ∈ d.namedKeysOf n
  nodup : ∀ key, (d.named.carriers key).Nodup

/-- d' has the index of d, and the elements of d' carry the keys they have in d -/
structure SameKeys (d d' : Dom) : Prop where
  named : d'.named = d.named
  keys : d'.reading kindKeys [] = d.reading kindKeys []

namespace Indexed

variable {stale : Set NodeId}

theorem same (h : Indexed stale d) (hs : SameKeys d d') : Indexed stale d' where
  mem n key := by
    rw [hs.named, namedKeysOf_eq_reading, hs.keys, ← namedKeysOf_eq_reading]; exact h.mem n key
  nodup key := by rw [hs.named]; exact h.nodup key

/-- an element without keys may be stale or not -/
theorem congr (h : Indexed stale d) {stale' : Set NodeId}
    (hs : ∀ n, d.namedKeysOf n ≠ [] → (n ∈ stale ↔ n ∈ stale')) : Indexed stale' d where
  mem n key := by
    rw [h.mem]
    refine and_congr_left fun hk => not_congr (hs n ?_)
    exact List.ne_nil_of_mem hk
  nodup := h.nodup

/-- `index_named`: the element is no longer stale -/
theorem indexNamed (h : Indexed stale d) (n : NodeId) : Indexed (stale \ {n}) (d.indexNamed n) where
  mem m key := by
    show m ∈ (_ : NamedIndex).carriers key ↔ _ ∧ key ∈ d.namedKeysOf m
    rw [Dom.indexNamed, mem_carriers_index, h.mem]
    by_cases hm : m = n
    · subst hm; simp
    · simp [hm]
  nodup := nodup_carriers_index _ _ n h.nodup

/-- `unindex_named`: the element is stale -/
theorem unindexNamed (h : Indexed ∅ d) (n : NodeId) : Indexed {n} (d.unindexNamed n) where
  mem m key := by
    show m ∈ (_ : NamedIndex).carriers key ↔ _ ∧ key ∈ d.namedKeysOf m
    rw [Dom.unindexNamed, mem_carriers_unindex, h.mem]
    by_cases hm : m = n
    · subst hm; simp
    · simp [hm]
  nodup := nodup_carriers_unindex _ _ n h.nodup

/-- `index_named` ends what `unindex_named` began -/
theorem reindexed {n : NodeId} (h : Indexed {n} d) : Indexed ∅ (d.indexNamed n) := by
  have := h.indexNamed n
  rwa [Set.sdiff_self] at this

/-- a stale element may be written -/
theorem modifyElement {n : NodeId} (h : Indexed {n} d) (f : ElementData → ElementData) :
    Indexed {n} (d.modifyElement n f) where
  mem m key := by
    rw [show (d.modifyElement n f).named = d.named from rfl, h.mem]
    refine and_congr_right fun hm => ?_
    unfold namedKeysOf elementOf Dom.modifyElement
    rw [kindOf_modifyNode, if_neg fun hnm => hm (by simp [hnm])]
  nodup := h.nodup

end Indexed

theorem sameKeys_of_nodes (hn : d'.named = d.named) (h : d'.nodes = d.nodes) : SameKeys d d' := ⟨hn, reading_of_nodes h⟩

theorem sameKeys_of_kindOf (hn : d'.named = d.named) (h : d'.kindOf = d.kindOf) : SameKeys d d' := ⟨hn, reading_of_kindOf h⟩

theorem named_of_logOnly (h : LogOnly d d') : d'.named = d.named := by
  have := congrArg Dom.named h
  exact this

theorem Indexed.logOnly {stale : Set NodeId} (h : Indexed stale d) (hl : LogOnly d d') : Indexed stale d' :=
  h.same (sameKeys_of_nodes (named_of_logOnly hl) hl.nodes)

theorem runs_recordMutations (stale : Set NodeId) (mutations : List MutationKind) :
    Runs (Indexed stale) (recordMutations mutations) (Indexed stale) :=
  Runs.awaitModify fun _ _ hd h => hd.logOnly (logOnly_recordMutationsIn h)

/-! ## Every reachable DOM -/

theorem keys_withData (kind : NodeKind) (value : String) : kindKeys (kind.withData value) = kindKeys kind := by
  cases kind <;> rfl

theorem sameKeys_detach (n : NodeId) : SameKeys d (d.detachWithoutRevision n) := by
  refine sameKeys_of_kindOf ?_ (kindOf_detachWithoutRevision n)
  cases hp : d.parent n with
  | none => unfold detachWithoutRevision; rw [hp]
  | some p =>
    obtain ⟨ranges, h⟩ := detachWithoutRevision_eq hp
    rw [h]; rfl

theorem named_moves : KeptByMoves (Indexed ∅) where
  ranges _ _ hd := hd.same (sameKeys_of_nodes rfl rfl)
  detach _ n hd := hd.same (sameKeys_detach n)
  insertChild _ p i n hd := hd.same (sameKeys_of_kindOf rfl (kindOf_insertChild p n i))
  adoptSubtree _ _ _ _ hd h := by
    have ho := ownersOnly_adoptSubtree h
    exact hd.same (sameKeys_of_kindOf (by rw [ho.rest]) ho.kindOf)
  recordMutations mutations s r t hs h := (runs_recordMutations ∅ mutations s r t hs h).2

/-- a write to an element that leaves its keys alone -/
theorem Indexed.keepsKeys (h : Indexed ∅ d) (n : NodeId) {f : ElementData → ElementData}
    (hf : ∀ data, elementKeys (f data) = elementKeys data) : Indexed ∅ (d.modifyElement n f) :=
  h.same ⟨rfl, reading_modifyElement n hf⟩

/-- an attribute write: the element leaves the index, `write` changes it, and it is indexed again -/
theorem keeps_reindex {element : NodeId} {write : DomM Unit} {rest : DomM Unit}
    (hw : Runs (Indexed {element}) write (Indexed {element})) (hr : Keeps (Indexed ∅) rest) :
    Keeps (Indexed ∅) (do
      modify fun d => d.unindexNamed element
      write
      modify fun d => d.indexNamed element
      rest) :=
  (Runs.modify fun _ hd => Indexed.unindexNamed hd element).spec_bind fun _ =>
    hw.spec_bind fun _ => (Runs.modify fun _ hd => Indexed.reindexed hd).spec_bind fun _ => hr

theorem runs_writeElement (element : NodeId) (f : ElementData → ElementData) (mutations : List MutationKind) :
    Runs (Indexed {element}) (do modify fun d => d.modifyElement element f; recordMutations mutations)
      (Indexed {element}) :=
  (Runs.modify fun _ hd => Indexed.modifyElement hd f).bind fun _ => runs_recordMutations _ _

theorem keeps_imageSourceChanged (c : Prop) [Decidable c] (n : NodeId) (hasSource : Bool) :
    Keeps (Indexed ∅) (when c (modify fun d => d.imageSourceChanged n hasSource) : DomM Unit) := by
  refine Keeps.when (Keeps.modify fun d hd => ?_)
  unfold imageSourceChanged
  split_ifs
  · exact hd.same (sameKeys_of_nodes rfl rfl)
  · exact hd.same (sameKeys_of_nodes rfl rfl)
  · exact hd

theorem keeps_setAttribute (element : NodeId) (localName value : String) :
    Keeps (Indexed ∅) (setAttribute element localName value) := by
  refine Keeps.bind (Keeps.check _) fun kind => ?_
  split
  · exact keeps_reindex (runs_writeElement element _ _) (keeps_imageSourceChanged _ element true)
  · exact Keeps.fail _

theorem keeps_setAttributeNs (element : NodeId) (nameSpace namePrefix : Option String) (localName value : String) :
    Keeps (Indexed ∅) (setAttributeNs element nameSpace namePrefix localName value) := by
  refine Keeps.bind (Keeps.check _) fun kind => ?_
  split
  · exact keeps_reindex (runs_writeElement element _ _) (keeps_imageSourceChanged _ element true)
  · exact Keeps.fail _

theorem keeps_removeAttribute (element : NodeId) (localName : String) :
    Keeps (Indexed ∅) (removeAttribute element localName) := by
  refine Keeps.bind (Keeps.check _) fun kind => ?_
  split
  · exact keeps_reindex (Runs.whenSome fun _ => runs_writeElement element _ _)
      (keeps_imageSourceChanged _ element false)
  · exact Keeps.fail _

theorem keeps_removeAttributeNs (element : NodeId) (nameSpace : Option String) (localName : String) :
    Keeps (Indexed ∅) (removeAttributeNs element nameSpace localName) := by
  refine Keeps.bind (Keeps.check _) fun kind => ?_
  split
  · exact keeps_reindex (Runs.whenSome fun _ => runs_writeElement element _ _)
      (keeps_imageSourceChanged _ element false)
  · exact Keeps.fail _

/-- a new element carries no attributes, so it is not in the index and may count as stale -/
theorem spec_createElementQualified (nameSpace : Namespace) (namePrefix : Option String) (localName : String) :
    Spec (Indexed ∅) (createElementQualified nameSpace namePrefix localName) fun r t =>
      Indexed ∅ t ∧ ∀ copy, r = .ok copy → t.namedKeysOf copy = [] := by
  have hdata : Spec (Indexed ∅) (newElementData nameSpace namePrefix localName) fun r t =>
      ∃ data, r = .ok data ∧ data.attributes = [] ∧ Indexed ∅ t := by
    intro s r t hs h
    unfold newElementData at h
    split_ifs at h
    · obtain ⟨e, h, -⟩ | ⟨contents, u, hu, h⟩ := bind_returns h
      · simp [createDocumentFragment, allocate] at h
      · simp only [pure_run, Option.some.injEq, Prod.mk.injEq] at h
        obtain ⟨rfl, rfl⟩ := h
        simp only [createDocumentFragment, allocate, get_bind, modify_bind, pure_run, Option.some.injEq,
          Prod.mk.injEq] at hu
        exact ⟨_, rfl, rfl, hu.2 ▸ hs.same ⟨rfl, reading_allocateIn rfl⟩⟩
    · simp only [pure_run, Option.some.injEq, Prod.mk.injEq] at h
      exact ⟨_, h.1.symm, rfl, h.2 ▸ hs⟩
  intro s r t hs h
  unfold createElementQualified at h
  rcases bind_returns h with ⟨e, h, -⟩ | ⟨data, u, hu, h⟩
  · obtain ⟨data, hdata, -⟩ := hdata s _ t hs h
    cases hdata
  · obtain ⟨data', hdata', hnil, hidx⟩ := hdata s _ u hs hu
    obtain rfl := Except.ok.inj hdata'
    have hkeys : kindKeys (.element data) = [] := by
      show elementKeys data = []
      unfold elementKeys attributeValue
      simp [hnil]
    simp only [allocate, get_bind, modify_bind, pure_run, Option.some.injEq, Prod.mk.injEq] at h
    obtain ⟨rfl, rfl⟩ := h
    refine ⟨hidx.same ⟨rfl, reading_allocateIn hkeys⟩, fun copy hcopy => ?_⟩
    rw [← Except.ok.inj hcopy, namedKeysOf_eq_reading, reading_allocateIn hkeys, reading_length]

/-- a clone is stale while its attributes are copied -/
theorem keeps_cloneElement (n : NodeId) (data : ElementData) : Keeps (Indexed ∅) (cloneKind n (.element data)) := by
  intro s r t hs h
  rcases bind_returns h with ⟨e, h, -⟩ | ⟨copy, u, hu, h⟩
  · exact (spec_createElementQualified _ _ _ s _ t hs h).1
  · obtain ⟨hidx, hkeys⟩ := spec_createElementQualified _ _ _ s _ u hs hu
    have hstale : Indexed {copy} u := hidx.congr fun m hm => by
      refine ⟨fun h => h.elim, fun h => absurd (hkeys copy rfl) ?_⟩
      rwa [Set.mem_singleton_iff.1 h] at hm
    simp only [modify_bind, pure_run, Option.some.injEq, Prod.mk.injEq] at h
    exact h.2 ▸ (hstale.modifyElement _).reindexed

theorem sameKeys_attached (data : ShadowRootData) : SameKeys d (d.attached data) where
  named := rfl
  keys := by
    refine (reading_of_nodes rfl).trans ((reading_modifyElement data.host (by exact fun _ => rfl)).trans ?_)
    exact (reading_of_kindOf (kindOf_setNodeDocument _ _)).trans (reading_allocateIn rfl)

theorem keeps_attachShadow (host : NodeId) (mode : ShadowRootMode) (delegatesFocus : Bool)
    (slotAssignment : SlotAssignmentMode) :
    Keeps (Indexed ∅) (attachShadow host mode delegatesFocus slotAssignment) := by
  intro d r d' hd h
  rcases attachShadow_returns h with ⟨_, -, rfl⟩ | ⟨data, -, -, -, hrec⟩
  · exact hd
  · exact (hd.same (sameKeys_attached _)).logOnly (logOnly_recordMutationsIn hrec)

theorem named_kept : KeptByTree (Indexed ∅) where
  ranges _ _ hd := hd.same (sameKeys_of_nodes rfl rfl)
  selections _ _ hd := hd.same (sameKeys_of_nodes rfl rfl)
  contentTypes _ _ hd := hd.same (sameKeys_of_nodes rfl rfl)
  allocate d kind hk hd := by
    refine hd.same ⟨rfl, reading_allocateIn ?_⟩
    cases kind <;> simp_all [NodeKind.isPlain, NodeKind.tag, kindKeys]
  setNodeDocument _ n document hd := hd.same (sameKeys_of_kindOf rfl (kindOf_setNodeDocument n document))
  setDataText _ n value hd := hd.same ⟨rfl, reading_setDataText n value fun kind => keys_withData kind value⟩
  adoptSubtree := named_moves.adoptSubtree
  recordMutations := named_moves.recordMutations
  createElementQualified nameSpace namePrefix localName s r t hs h :=
    (spec_createElementQualified nameSpace namePrefix localName s r t hs h).1
  cloneElement := keeps_cloneElement
  insertBefore := named_moves.insertBefore
  removeChild := named_moves.removeChild
  attachShadow := keeps_attachShadow
  assignSlotNodes := keeps_assignSlotNodes fun _ n _ hd => hd.keepsKeys n fun _ => rfl
  setAttribute := keeps_setAttribute
  removeAttribute := keeps_removeAttribute
  setAttributeNs := keeps_setAttributeNs
  removeAttributeNs := keeps_removeAttributeNs
  formOwner _ n _ hd := hd.keepsKeys n fun _ => rfl
  imageStates _ _ hd := hd.same (sameKeys_of_nodes rfl rfl)
  focusedArea _ _ hd := hd.same (sameKeys_of_nodes rfl rfl)
  journalCapacity d capacity hd :=
    Indexed.logOnly (d := { d with mutationJournalCapacity := capacity }) (hd.same (sameKeys_of_nodes rfl rfl))
      (logOnly_boundJournal _ capacity)

theorem keys_shift (offset : ℕ) (kind : NodeKind) : kindKeys (kind.shift offset) = id (kindKeys kind) := by
  cases kind <;> rfl

/-- the loop of `graft_document` indexes the nodes it is run over -/
theorem Indexed.foldl {stale : Set NodeId} (l : List NodeId) (h : Indexed stale d) :
    Indexed (stale \ {n | n ∈ l}) (l.foldl Dom.indexNamed d) := by
  induction l generalizing d stale with
  | nil => exact h.congr fun n _ => by simp
  | cons n l ih => exact (ih (h.indexNamed n)).congr fun m _ => by simp [not_or, and_assoc]

theorem past_range {offset length n : ℕ} (h : offset ≤ n) (hn : n ∉ List.range' offset length) : length ≤ n - offset := by
  rw [List.mem_range'_1] at hn
  omega

theorem named_graft {other : Dom} (hd : Indexed ∅ d) : Indexed ∅ (d.graftDocument other) := by
  have hkeys : ∀ n, (d.graftDocument other).namedKeysOf n =
      if n < d.nodes.length then d.namedKeysOf n else other.namedKeysOf (n - d.nodes.length) := fun n => by
    rw [namedKeysOf_eq_reading, reading_graftDocument (keys_shift _) rfl, ← namedKeysOf_eq_reading,
      ← namedKeysOf_eq_reading]
    rfl
  have hnodes : (d.graftDocument other).kindOf = (d.graftNodes other).kindOf :=
    kindOf_of_nodes (nodes_graftDocument d other)
  have hgraft : ∀ n, (d.graftNodes other).namedKeysOf n = (d.graftDocument other).namedKeysOf n := fun n => by
    rw [namedKeysOf_eq_reading, namedKeysOf_eq_reading, reading_of_kindOf hnodes]
  -- the nodes brought in are stale, since the index names nodes of `d` only
  have hstale : Indexed {n | d.nodes.length ≤ n} (d.graftNodes other) := by
    refine ⟨fun n key => ?_, hd.nodup⟩
    rw [show (d.graftNodes other).named = d.named from rfl, hd.mem, hgraft, hkeys]
    by_cases hn : n < d.nodes.length
    · simp [hn]
    · have hnil : d.namedKeysOf n = [] := by
        rw [namedKeysOf_eq_reading, reading, kindOf_eq_none.2 (Nat.le_of_not_lt hn)]; rfl
      simp [hnil, Nat.le_of_not_lt hn]
  have hindexed := hstale.foldl (List.range' d.nodes.length other.nodes.length)
  have hsame : ((List.range' d.nodes.length other.nodes.length).foldl indexNamed (d.graftNodes other)).SameKeys
      (d.graftDocument other) := ⟨rfl, reading_of_nodes rfl⟩
  refine (hindexed.same hsame).congr fun n hn => ?_
  · -- a node past both arenas has no keys
    refine ⟨fun hout => ?_, fun h => h.elim⟩
    obtain ⟨hle, hout⟩ := hout
    have hpast : other.nodes.length ≤ n - d.nodes.length := past_range hle hout
    rw [hkeys, if_neg (Nat.not_lt.2 hle), namedKeysOf_eq_reading, reading, kindOf_eq_none.2 hpast] at hn
    exact hn rfl

theorem indexed_reachable (hd : Reachable d) : Indexed ∅ d := by
  refine named_kept.reachable ⟨fun n key => ?_, fun key => ?_⟩ (fun _ _ hd _ => named_graft hd) hd
  · have hnew : Dom.new.reading kindKeys [] n = [] := reading_new rfl n
    rw [namedKeysOf_eq_reading, hnew]
    simp [NamedIndex.carriers, Dom.new]
  · simp [NamedIndex.carriers, Dom.new]

/-! ## What named access answers -/

/-- an HTML element whose `id` is the key, or whose `name` is, where its kind takes one -/
def Named (d : Dom) (n : NodeId) (key : String) : Prop :=
  ∃ data, d.elementOf n = some data ∧ data.nameSpace = .html ∧
    (attributeValue data "id" = some key ∨ takesNameAttribute data.localName = true ∧ attributeValue data "name" = some key)

theorem mem_elementKeys {data : ElementData} {key : String} : key ∈ elementKeys data ↔ key ≠ "" ∧
    data.nameSpace = .html ∧ (attributeValue data "id" = some key ∨
      takesNameAttribute data.localName = true ∧ attributeValue data "name" = some key) := by
  unfold elementKeys
  by_cases hns : data.nameSpace = .html
  · rw [if_neg (by simpa using hns)]
    have hid : key ∈ ((attributeValue data "id").filter (· ≠ "")).toList ↔
        key ≠ "" ∧ attributeValue data "id" = some key := by
      simp [Option.mem_toList, Option.filter_eq_some_iff, and_comm]
    dsimp only
    split
    · rename_i name hname
      obtain ⟨hname, hne⟩ := Option.filter_eq_some_iff.1 hname
      rw [hname]
      split_ifs with hc
      · rw [List.mem_append, hid, List.mem_singleton]
        simp only [decide_eq_true_eq] at hne
        constructor
        · rintro (⟨hk, h⟩ | rfl)
          · exact ⟨hk, hns, Or.inl h⟩
          · exact ⟨hne, hns, Or.inr ⟨hc.1, rfl⟩⟩
        · rintro ⟨hk, -, h | ⟨-, h⟩⟩
          · exact Or.inl ⟨hk, h⟩
          · exact Or.inr (Option.some.inj h).symm
      · rw [hid]
        constructor
        · exact fun ⟨hk, h⟩ => ⟨hk, hns, Or.inl h⟩
        · rintro ⟨hk, -, h | ⟨ht, h⟩⟩
          · exact ⟨hk, h⟩
          · obtain rfl := Option.some.inj h
            by_contra hout
            exact hc ⟨ht, fun hmem => hout (hid.1 hmem)⟩
    · rename_i hname
      rw [hid]
      constructor
      · exact fun ⟨hk, h⟩ => ⟨hk, hns, Or.inl h⟩
      · rintro ⟨hk, -, h | ⟨-, h⟩⟩
        · exact ⟨hk, h⟩
        · rw [Option.filter_eq_none_iff] at hname
          exact absurd h fun h => hname key h (by simpa using hk)
  · rw [if_pos hns]
    simp [hns]

theorem namesElement_iff {n : NodeId} {key : String} (hkey : key ≠ "") : d.namesElement n key = true ↔ d.Named n key := by
  unfold namesElement namedKeysOf Named
  rw [List.contains_iff_mem]
  cases d.elementOf n with
  | none => simp
  | some data => simp [mem_elementKeys, hkey]

instance (n : NodeId) (key : String) : Decidable (d.Named n key) :=
  decidable_of_iff ((d.elementOf n).any fun data => decide (data.nameSpace = .html ∧
      (attributeValue data "id" = some key ∨
        takesNameAttribute data.localName = true ∧ attributeValue data "name" = some key))) <| by
    unfold Named
    cases d.elementOf n <;> simp

theorem parent_of_document (hd : TreeInv d) {document : NodeId} (hdoc : d.kindOf document = some .document) :
    d.parent document = none := by
  by_contra hne
  obtain ⟨p, hp⟩ := Option.ne_none_iff_exists'.1 hne
  obtain ⟨tc, tp, htc, -, hm⟩ := hd.kinds document p hp
  rw [tagOf_eq_some hdoc] at htc
  obtain rfl := Option.some.inj htc
  cases tp <;> cases hm

theorem ne_document_of_named {document n : NodeId} {key : String} (hdoc : d.kindOf document = some .document)
    (h : d.Named n key) : n ≠ document := by
  obtain ⟨data, hel, -⟩ := h
  rintro rfl
  unfold elementOf at hel
  rw [hdoc] at hel
  cases hel

/-- a node other than the document is in the document's tree when it is below the document -/
theorem treeRoot_eq_document (hd : TreeInv d) {document n : NodeId} (hdoc : d.kindOf document = some .document)
    (hn : n ≠ document) : d.treeRoot n = document ↔ n ∈ d.descendants document := by
  have hroot := parent_of_document hd hdoc
  constructor
  · rintro rfl
    have hmem := hd.mem_descendantsInclusive.2 (treeRoot_spec hd.ends n).2
    rw [descendantsInclusive_eq hd] at hmem
    exact (List.mem_cons.1 hmem).resolve_left hn
  · exact fun h => (eq_treeRoot hd.ends (hd.above_of_mem_descendants h) hroot).symm

/-- the candidates of `named_elements`: what the index holds under the key, in the document and still named by it -/
theorem mem_carriers (hi : Indexed ∅ d) {n : NodeId} {key : String} (hkey : key ≠ "") :
    n ∈ d.named.carriers key ↔ d.Named n key := by
  rw [hi.mem, ← namesElement_iff hkey]
  unfold namesElement
  rw [List.contains_iff_mem]
  simp

/-- the elements `named_elements` has found before it sorts them are those of the walk -/
theorem found_perm (hd : TreeInv d) (hi : Indexed ∅ d) {document : NodeId} (hdoc : d.kindOf document = some .document)
    {key : String} (hkey : key ≠ "") :
    (((d.named.carriers key).filter fun n => d.namesElement n key).filterMap fun n =>
        if (d.treePosition n).1 = document then some ((d.treePosition n).2, n) else none).Perm
      (((d.descendants document).filter fun n => d.Named n key).map fun n => ((d.treePosition n).2, n)) := by
  refine (List.perm_ext_iff_of_nodup ?_ ?_).2 ?_
  · refine ((hi.nodup key).filter _).filterMap fun a b x ha hb => ?_
    split_ifs at ha hb <;> simp only [Option.mem_def, Option.some.injEq, reduceCtorEq] at ha hb
    rw [← ha] at hb
    exact (Prod.mk.inj hb).2.symm
  · exact List.Nodup.map (fun a b hab => (Prod.mk.inj hab).2) ((hd.nodup_descendants document).filter _)
  · rintro ⟨position, n⟩
    simp only [List.mem_filterMap, List.mem_filter, List.mem_map, decide_eq_true_eq, Option.ite_none_right_eq_some,
      Option.some.injEq, Prod.mk.injEq, mem_carriers hi hkey, namesElement_iff hkey, and_self]
    refine exists_congr fun a => ?_
    constructor
    · rintro ⟨ha, hroot, hp⟩
      exact ⟨⟨(treeRoot_eq_document hd hdoc (ne_document_of_named hdoc ha)).1 hroot, ha⟩, hp⟩
    · rintro ⟨⟨hmem, ha⟩, hp⟩
      exact ⟨ha, (treeRoot_eq_document hd hdoc (ne_document_of_named hdoc ha)).2 hmem, hp⟩

theorem namedElements_eq (hd : TreeInv d) (hi : Indexed ∅ d) {document : NodeId}
    (hdoc : d.kindOf document = some .document) {key : String} (hkey : key ≠ "") :
    d.namedElements document key = (d.descendants document).filter fun n => d.Named n key := by
  have hperm := found_perm hd hi hdoc hkey
  unfold namedElements
  rw [if_neg hkey]
  unfold NamedIndex.carriers at hperm
  cases hk : d.named.keys[key]? with
  | none =>
    rw [hk] at hperm
    have hnil := List.nil_perm.1 hperm
    rw [List.map_eq_nil_iff] at hnil
    exact hnil.symm
  | some candidates =>
    rw [hk, Option.getD_some] at hperm
    dsimp only
    have hpos : (((d.descendants document).filter fun n => d.Named n key).map fun n => ((d.treePosition n).2, n)).Pairwise
        fun left right => left.1 < right.1 :=
      List.pairwise_map.2 ((descendants_sorted hd (parent_of_document hd hdoc)).sublist List.filter_sublist)
    rw [mergeSort_eq_of_perm Prod.fst hperm hpos, List.map_map]
    exact List.map_id'' (fun _ => rfl) _

end Dom

/-- **Named access is a walk of the document.** For a document and a key, `named_elements` lists exactly the HTML elements
below the document that the key names, in document order and each once; `named_keys` lists exactly the keys for which it
lists any. -/
theorem namedElements_walk {d : Dom} (hd : Reachable d) {document : NodeId}
    (hdoc : d.kindOf document = some .document) :
    (∀ key, key ≠ "" →
      d.namedElements document key = (d.descendants document).filter (fun n => d.Named n key) ∧
      (d.namedElements document key).Nodup ∧
      ∀ n, n ∈ d.namedElements document key ↔ d.links.Above document n ∧ d.Named n key) ∧
    ∀ key, key ∈ d.namedKeys document ↔ d.namedElements document key ≠ [] := by
  have ht := treeInv_reachable hd
  have hi := Dom.indexed_reachable hd
  refine ⟨fun key hkey => ⟨Dom.namedElements_eq ht hi hdoc hkey, ?_, fun n => ?_⟩, fun key => ?_⟩
  · rw [Dom.namedElements_eq ht hi hdoc hkey]
    exact (ht.nodup_descendants document).filter _
  · rw [Dom.namedElements_eq ht hi hdoc hkey, List.mem_filter, decide_eq_true_iff]
    refine and_congr_left fun hn => ?_
    rw [← Dom.treeRoot_eq_document ht hdoc (Dom.ne_document_of_named hdoc hn)]
    constructor
    · rintro rfl
      exact (Dom.treeRoot_spec ht.ends n).2
    · exact fun h => (Dom.eq_treeRoot ht.ends h (Dom.parent_of_document ht hdoc)).symm
  · unfold Dom.namedKeys
    rw [List.mem_filter, Std.TreeMap.mem_keys]
    simp only [Bool.not_eq_true', List.isEmpty_eq_false_iff]
    refine and_iff_right_of_imp fun hne => ?_
    -- a key that names an element is a key of the index
    by_contra hout
    refine hne ?_
    unfold Dom.namedElements
    rw [Std.TreeMap.getElem?_eq_none hout]
    split_ifs <;> rfl

/-- two elements named "a" in the order of the tree, one of them by a prefixed attribute that was written twice, and a
third that is detached -/
def sampleNamedOps : List Op :=
  [.createElement "p", .createElement "img", .createElement "form", .appendChild 0 1, .setAttribute 2 "name" "a",
    .setAttribute 3 "id" "a", .appendChild 1 3, .insertBefore 1 2 (some 3), .cloneNode 3 false,
    .setAttributeNs 2 none (some "x") "id" "b", .removeAttribute 2 "x:id"]

theorem namedElements_walk_sample : ∃ d, runAll sampleNamedOps Dom.new = some d ∧ d.namedElements 0 "a" = [2, 3] ∧
    "a" ∈ d.namedKeys 0 ∧ "b" ∉ d.namedKeys 0 ∧ d.Named 4 "a" := by
  obtain ⟨d, hd⟩ : ∃ d, runAll sampleNamedOps Dom.new = some d := Option.isSome_iff_exists.1 (by decide)
  have hdoc : (runAll sampleNamedOps Dom.new).map (fun d => d.kindOf 0) = some (some .document) := by decide
  have ha : (runAll sampleNamedOps Dom.new).map (fun d => (d.descendants 0).filter fun n => d.Named n "a") =
      some [2, 3] := by decide
  have hb : (runAll sampleNamedOps Dom.new).map (fun d => (d.descendants 0).filter fun n => d.Named n "b") =
      some [] := by decide
  have hclone : (runAll sampleNamedOps Dom.new).map (fun d => decide (d.Named 4 "a")) = some true := by decide
  rw [hd] at hdoc ha hb hclone
  obtain ⟨helements, hkeys⟩ := namedElements_walk (Reach.new.runAll hd) (Option.some.inj hdoc)
  have hela : d.namedElements 0 "a" = [2, 3] := (helements "a" (by decide)).1.trans (Option.some.inj ha)
  have helb : d.namedElements 0 "b" = [] := (helements "b" (by decide)).1.trans (Option.some.inj hb)
  refine ⟨d, hd, hela, (hkeys "a").2 (by rw [hela]; simp), fun h => (hkeys "b").1 h helb, ?_⟩
  exact of_decide_eq_true (Option.some.inj hclone)

end Render
