/-
Form owners and the elements of a form (`render-dom/src/lib.rs`): two readings of one relation.

`form_owner` asks a control for its form, `form_owner_elements` walks the tree of a form and asks every listed element in it.
The two agree as long as an owner lies in the tree of its control. The derived rules only find such owners. The form that the
parser recorded is checked with `is_in_same_tree`, which compares whether the two nodes are connected and nothing else: once the
control and the form are taken out of the document separately, the record still counts (`Adrift`), and the walk does not find
the control.
-/
import Render.Dom.ShadowIncluding

namespace Render

open Render.Core

namespace Dom

section Reading

variable (d : Dom)

/-- `is_listed_element` -/
def isListedElement (n : NodeId) : Bool := d.isFormAssociated n && d.elementData n != some (.html, "img")

/-- `is_form_element` -/
def isFormElement (n : NodeId) : Bool := d.elementData n == some (.html, "form")

/-- `is_image_button` -/
def isImageButton (n : NodeId) : Bool :=
  d.elementData n == some (.html, "input") &&
    (d.attributeOf n "type").any fun value => toAsciiLowercase value == toAsciiLowercase "image"

/-- `parser_inserted_form_owner` -/
def parserInsertedFormOwner (n : NodeId) : Option ParserInsertedFormOwner :=
  (d.elementOf n).bind ElementData.parserInsertedFormOwner

/-- `is_in_same_tree`, which says whether both nodes are connected or both are not -/
def isInSameTree (left right : NodeId) : Option Bool :=
  (d.isConnected left).bind fun leftConnected => (d.isConnected right).map fun rightConnected => leftConnected == rightConnected

/-- `nearest_ancestor_form` -/
def nearestAncestorForm (n : NodeId) : Option NodeId := (d.ancestorsInclusive n).tail.find? d.isFormElement

/-- `first_element_in_tree_with_id` -/
def firstElementInTreeWithId (n : NodeId) (id : String) : Option NodeId :=
  (d.descendantsInclusive (d.treeRoot n)).find? fun candidate =>
    (d.elementOf candidate).isSome && d.attributeOf candidate "id" == some id

/-- the form the parser recorded, when the control is still the child it was recorded for and the form is an element -/
def linkedForm (n : NodeId) : Option NodeId :=
  (d.parserInsertedFormOwner n).bind fun link =>
    if d.parent n = some link.intendedParent ∧ (d.elementOf link.form).isSome then some link.form else none

/-- the rules that read the tree: the `form` attribute of a connected listed element, and else the nearest form above -/
def derivedOwner (n : NodeId) : Option (Option NodeId) :=
  if d.isListedElement n then
    (d.isConnected n).map fun connected =>
      match if connected then d.attributeOf n "form" else none with
      | some id => (d.firstElementInTreeWithId n id).filter d.isFormElement
      | none => d.nearestAncestorForm n
  else some (d.nearestAncestorForm n)

/-- `form_owner`, `none` when it does not return -/
def formOwner (n : NodeId) : Option (Option NodeId) :=
  if d.isFormAssociated n then
    match d.linkedForm n with
    | some form => (d.isInSameTree n form).bind fun same => if same then some (some form) else d.derivedOwner n
    | none => d.derivedOwner n
  else some none

/-- `listed_elements_within` -/
def listedElementsWithin (root : NodeId) : List NodeId := (d.descendantsInclusive root).filter d.isListedElement

/-- `form_owner_elements`, `none` when one of the owners it asks for does not come -/
def formOwnerElements (form : NodeId) : Option (List NodeId) :=
  if d.isFormElement form then
    let listed := d.listedElementsWithin (d.treeRoot form)
    if listed.all fun element => (d.formOwner element).isSome then
      some ((listed.filter fun element => d.formOwner element == some (some form)).filter fun element =>
        !d.isImageButton element)
    else none
  else some []

end Reading

variable {d : Dom}

/-! ## The tree of a form -/

theorem above_treeRoot_iff (hd : TreeInv d) {f e : NodeId} : d.links.Above (d.treeRoot f) e ↔ d.treeRoot e = d.treeRoot f := by
  obtain ⟨htop, -⟩ := treeRoot_spec hd.ends f
  constructor
  · intro habove
    exact (eq_treeRoot hd.ends habove htop).symm
  · intro hsame
    rw [← hsame]
    exact (treeRoot_spec hd.ends e).2

/-- the walk of the form's tree meets the listed elements of that tree -/
theorem mem_listedElementsWithin (hd : TreeInv d) {f e : NodeId} :
    e ∈ d.listedElementsWithin (d.treeRoot f) ↔ d.isListedElement e = true ∧ d.treeRoot e = d.treeRoot f := by
  unfold listedElementsWithin
  rw [List.mem_filter, hd.mem_descendantsInclusive, above_treeRoot_iff hd, and_comm]

theorem isFormAssociated_of_listed {n : NodeId} (h : d.isListedElement n = true) : d.isFormAssociated n = true :=
  (Bool.and_eq_true_iff.1 h).1

/-! ## The derived rules -/

theorem nearestAncestorForm_above (hd : TreeInv d) {n g : NodeId} (h : d.nearestAncestorForm n = some g) : d.links.Above g n :=
  (mem_ancestorsInclusive hd.ends).1 (List.mem_of_mem_tail (List.mem_of_find?_eq_some h))

theorem firstElementInTreeWithId_root (hd : TreeInv d) {n g : NodeId} {id : String}
    (h : d.firstElementInTreeWithId n id = some g) : d.treeRoot g = d.treeRoot n :=
  (above_treeRoot_iff hd).1 (hd.mem_descendantsInclusive.1 (List.mem_of_find?_eq_some h))

/-- the rules that read the tree find a form in the tree of the control -/
theorem derivedOwner_root (hd : TreeInv d) {n g : NodeId} (h : d.derivedOwner n = some (some g)) :
    d.treeRoot g = d.treeRoot n := by
  have nearest : d.nearestAncestorForm n = some g → d.treeRoot g = d.treeRoot n := fun hform =>
    treeRoot_eq_of_above hd.ends (nearestAncestorForm_above hd hform)
  unfold derivedOwner at h
  split_ifs at h with hlisted
  · obtain ⟨connected, -, hform⟩ := Option.map_eq_some_iff.1 h
    split at hform
    · exact firstElementInTreeWithId_root hd (Option.filter_eq_some_iff.1 hform).1
    · exact nearest hform
  · exact nearest (Option.some.inj h)

theorem derivedOwner_returns_iff (hd : TreeInv d) {n : NodeId} (hlisted : d.isListedElement n = true) :
    (∃ owner, d.derivedOwner n = some owner) ↔ Ends d.shadowIncludingParent n := by
  rw [← isConnected_returns_iff hd]
  unfold derivedOwner
  rw [if_pos hlisted]
  constructor
  · rintro ⟨owner, h⟩
    obtain ⟨connected, hconnected, -⟩ := Option.map_eq_some_iff.1 h
    exact ⟨connected, hconnected⟩
  · rintro ⟨connected, hconnected⟩
    exact ⟨_, by rw [hconnected]; rfl⟩

/-! ## When the owner comes -/

/-- the walks across hosts that the owner of a listed element needs end -/
def Resolvable (d : Dom) (n : NodeId) : Prop :=
  Ends d.shadowIncludingParent n ∧ ∀ form, d.linkedForm n = some form → Ends d.shadowIncludingParent form

theorem isInSameTree_returns_iff (hd : TreeInv d) (left right : NodeId) :
    (∃ same, d.isInSameTree left right = some same) ↔
      Ends d.shadowIncludingParent left ∧ Ends d.shadowIncludingParent right := by
  rw [← isConnected_returns_iff hd, ← isConnected_returns_iff hd]
  unfold isInSameTree
  constructor
  · rintro ⟨same, h⟩
    obtain ⟨l, hl, h⟩ := Option.bind_eq_some_iff.1 h
    obtain ⟨r, hr, -⟩ := Option.map_eq_some_iff.1 h
    exact ⟨⟨l, hl⟩, ⟨r, hr⟩⟩
  · rintro ⟨⟨l, hl⟩, ⟨r, hr⟩⟩
    exact ⟨_, by rw [hl, hr]; rfl⟩

theorem formOwner_returns_iff (hd : TreeInv d) {n : NodeId} (hlisted : d.isListedElement n = true) :
    (∃ owner, d.formOwner n = some owner) ↔ d.Resolvable n := by
  unfold formOwner Resolvable
  rw [if_pos (isFormAssociated_of_listed hlisted)]
  cases d.linkedForm n with
  | none =>
    refine (derivedOwner_returns_iff hd hlisted).trans ⟨fun h => ⟨h, ?_⟩, fun h => h.1⟩
    rintro form ⟨⟩
  | some form =>
    dsimp only
    constructor
    · rintro ⟨owner, h⟩
      obtain ⟨same, hsame, -⟩ := Option.bind_eq_some_iff.1 h
      obtain ⟨hn, hform⟩ := (isInSameTree_returns_iff hd n form).1 ⟨same, hsame⟩
      refine ⟨hn, ?_⟩
      rintro _ ⟨⟩
      exact hform
    · rintro ⟨hn, hform⟩
      obtain ⟨same, hsame⟩ := (isInSameTree_returns_iff hd n form).2 ⟨hn, hform form rfl⟩
      obtain ⟨derived, hderived⟩ := (derivedOwner_returns_iff hd hlisted).2 hn
      rw [hsame, Option.bind_some]
      cases same with
      | true => exact ⟨_, rfl⟩
      | false => exact ⟨derived, hderived⟩

theorem formOwnerElements_returns_iff (hd : TreeInv d) {f : NodeId} (hf : d.isFormElement f = true) :
    (∃ elements, d.formOwnerElements f = some elements) ↔
      ∀ e, d.isListedElement e = true → d.treeRoot e = d.treeRoot f → d.Resolvable e := by
  unfold formOwnerElements
  rw [if_pos hf]
  dsimp only
  constructor
  · rintro ⟨elements, h⟩ e hlisted hroot
    split_ifs at h with hall
    have hcomes := List.all_eq_true.1 hall e ((mem_listedElementsWithin hd).2 ⟨hlisted, hroot⟩)
    exact (formOwner_returns_iff hd hlisted).1 (Option.isSome_iff_exists.1 hcomes)
  · intro hall
    refine ⟨_, if_pos (List.all_eq_true.2 fun e he => ?_)⟩
    obtain ⟨hlisted, hroot⟩ := (mem_listedElementsWithin hd).1 he
    exact Option.isSome_iff_exists.2 ((formOwner_returns_iff hd hlisted).2 (hall e hlisted hroot))

/-- what is among the elements of a form -/
theorem mem_formOwnerElements (hd : TreeInv d) {f c : NodeId} {elements : List NodeId} (hf : d.isFormElement f = true)
    (h : d.formOwnerElements f = some elements) :
    c ∈ elements ↔ (d.isListedElement c = true ∧ d.treeRoot c = d.treeRoot f) ∧ d.formOwner c = some (some f) ∧
      d.isImageButton c = false := by
  unfold formOwnerElements at h
  rw [if_pos hf] at h
  dsimp only at h
  split_ifs at h
  rw [← Option.some.inj h, List.mem_filter, List.mem_filter, mem_listedElementsWithin hd, beq_iff_eq, Bool.not_eq_true', and_assoc]

/-! ## The two readings -/

/-- the parser's record counts, and its form lies in another tree: the control and the form are both connected, or both not -/
def Adrift (d : Dom) (c : NodeId) : Prop :=
  ∃ form, d.linkedForm c = some form ∧ d.isInSameTree c form = some true ∧ d.treeRoot form ≠ d.treeRoot c

theorem formOwner_root_iff (hd : TreeInv d) {c : NodeId} {owner : Option NodeId} (hlisted : d.isListedElement c = true)
    (h : d.formOwner c = some owner) : (∀ g, owner = some g → d.treeRoot g = d.treeRoot c) ↔ ¬ d.Adrift c := by
  unfold formOwner at h
  rw [if_pos (isFormAssociated_of_listed hlisted)] at h
  have derived : d.derivedOwner c = some owner → ∀ g, owner = some g → d.treeRoot g = d.treeRoot c := by
    rintro hderived g rfl
    exact derivedOwner_root hd hderived
  unfold Adrift
  cases hlink : d.linkedForm c with
  | none =>
    rw [hlink] at h
    refine ⟨?_, fun _ => derived h⟩
    rintro - ⟨form, ⟨⟩, -⟩
  | some form =>
    rw [hlink] at h
    obtain ⟨same, hsame, h⟩ := Option.bind_eq_some_iff.1 h
    cases same with
    | true =>
      obtain rfl := Option.some.inj h
      constructor
      · rintro hroot ⟨_, ⟨⟩, -, hne⟩
        exact hne (hroot form rfl)
      · rintro hstays _ ⟨⟩
        by_contra hne
        exact hstays ⟨form, rfl, hsame, hne⟩
    | false =>
      refine ⟨?_, fun _ => derived h⟩
      rintro - ⟨_, ⟨⟩, hheld, -⟩
      rw [hsame] at hheld
      cases hheld

/-- both readings come and agree, and the owner of the control lies in its tree -/
def ReadingsAgree (d : Dom) (f c : NodeId) : Prop :=
  ∃ elements owner, d.formOwnerElements f = some elements ∧ d.formOwner c = some owner ∧ (c ∈ elements ↔ owner = some f) ∧
    ∀ g, owner = some g → d.treeRoot g = d.treeRoot c

end Dom

/-- **When the elements of a form are the controls that it owns.** In every reachable DOM, for every form and every listed
control that is not an image button: exactly when the control is not adrift and the walks across hosts, which the owners of the
control and of the listed elements in the form's tree need, end. -/
theorem formOwner_agrees_iff {d : Dom} (hd : Reachable d) {f c : NodeId} (hf : d.isFormElement f = true)
    (hc : d.isListedElement c = true) (himage : d.isImageButton c = false) :
    d.ReadingsAgree f c ↔
      ¬ d.Adrift c ∧ d.Resolvable c ∧ ∀ e, d.isListedElement e = true → d.treeRoot e = d.treeRoot f → d.Resolvable e := by
  have ht := treeInv_reachable hd
  constructor
  · rintro ⟨elements, owner, helements, howner, -, hroot⟩
    exact ⟨(Dom.formOwner_root_iff ht hc howner).1 hroot, (Dom.formOwner_returns_iff ht hc).1 ⟨owner, howner⟩,
      (Dom.formOwnerElements_returns_iff ht hf).1 ⟨elements, helements⟩⟩
  · rintro ⟨hstays, hresolvable, hall⟩
    obtain ⟨owner, howner⟩ := (Dom.formOwner_returns_iff ht hc).2 hresolvable
    obtain ⟨elements, helements⟩ := (Dom.formOwnerElements_returns_iff ht hf).2 hall
    have hroot := (Dom.formOwner_root_iff ht hc howner).2 hstays
    refine ⟨elements, owner, helements, howner, ?_, hroot⟩
    rw [Dom.mem_formOwnerElements ht hf helements, howner, Option.some.injEq]
    constructor
    · rintro ⟨-, howns, -⟩
      exact howns
    · rintro rfl
      exact ⟨⟨hc, (hroot f rfl).symm⟩, rfl, himage⟩

/-- a form and an input side by side in the body, associated by the parser -/
def sampleForm : List Op :=
  [.createElement "body", .appendChild 0 1, .createElement "form", .appendChild 1 2, .createElement "td", .appendChild 1 3,
    .createElement "input", .appendChild 3 4, .setParserInsertedFormOwner 4 2 3]

theorem formOwner_agrees_sample : ∃ d, runAll sampleForm Dom.new = some d ∧ d.ReadingsAgree 2 4 := by
  obtain ⟨d, hd⟩ : ∃ d, runAll sampleForm Dom.new = some d := Option.isSome_iff_exists.1 (by decide +kernel)
  have hall : (runAll sampleForm Dom.new).all (fun d =>
      d.isFormElement 2 && d.isListedElement 4 && !d.isImageButton 4 && d.linkedForm 4 == some 2 &&
        d.treeRoot 2 == d.treeRoot 4) = true := by decide +kernel
  have hwalks : (runAll sampleForm Dom.new).all (fun d =>
      decide (∀ n < d.nodes.length, (walk d.shadowIncludingParent d.passes n).isSome = true)) = true := by decide +kernel
  rw [hd] at hall hwalks
  simp only [Option.all_some, Bool.and_eq_true, beq_iff_eq, Bool.not_eq_true', decide_eq_true_eq] at hall hwalks
  obtain ⟨⟨⟨⟨hf, hc⟩, himage⟩, hlink⟩, hroot⟩ := hall
  have hac := Dom.acyclic_of_walks hwalks
  refine ⟨d, hd, (formOwner_agrees_iff (Reach.new.runAll hd) hf hc himage).2 ⟨?_, ⟨hac _, fun _ _ => hac _⟩,
    fun _ _ _ => ⟨hac _, fun _ _ => hac _⟩⟩⟩
  rintro ⟨form, hform, -, hne⟩
  rw [hlink] at hform
  obtain rfl := Option.some.inj hform
  exact hne hroot

/-- **The two readings drift apart** when the form and the parent of the input are each taken out of the document. -/
theorem formOwner_drifts : ¬ ∀ (d : Dom), Reachable d → ∀ f c, d.isFormElement f = true → d.isListedElement c = true →
    d.isImageButton c = false → d.ReadingsAgree f c := by
  intro hall
  obtain ⟨d, hd⟩ : ∃ d, runAll (sampleForm ++ [.removeChild 1 2, .removeChild 1 3]) Dom.new = some d :=
    Option.isSome_iff_exists.1 (by decide +kernel)
  have hread : (runAll (sampleForm ++ [.removeChild 1 2, .removeChild 1 3]) Dom.new).all (fun d =>
      d.isFormElement 2 && d.isListedElement 4 && !d.isImageButton 4 && d.formOwner 4 == some (some 2) &&
        d.formOwnerElements 2 == some []) = true := by decide +kernel
  rw [hd] at hread
  simp only [Option.all_some, Bool.and_eq_true, beq_iff_eq, Bool.not_eq_true'] at hread
  obtain ⟨⟨⟨⟨hf, hc⟩, himage⟩, howner⟩, helements⟩ := hread
  obtain ⟨elements, owner, helements', howner', hagree, -⟩ := hall d (Reach.new.runAll hd) 2 4 hf hc himage
  rw [helements, Option.some.injEq] at helements'
  rw [howner, Option.some.injEq] at howner'
  rw [← helements', ← howner'] at hagree
  cases hagree.2 rfl

end Render
