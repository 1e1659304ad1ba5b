/-
A combining mark put behind its base.

LB9 wants the mark to be as if it were not there. The mark's unit takes the class of its base and no break falls in
front of it, so most rules see the same to both sides of every other position. What differs is what looks at a unit
rather than at a class: the second unit back (LB20a, LB21a), the next one ahead (LB15c, LB25), the number in front of a
closing parenthesis (LB25), the East Asian width beside a quotation mark or a parenthesis (LB19, LB30), and the
indicators counted from the start of the text. `Transparent` says that none of these is asked. Besides, the options have
to leave the base's class, since the mark does not follow a rewritten one, and not to ask for a break around every unit.
-/
import Mathlib.Data.List.TakeWhile
import Render.Layout.LineSequences

namespace Render.Layout.LineBreak

/-! ## One unit more -/

/-- a position behind what is put behind the first `length` and one is one further on -/
def shifted (length position : ℕ) : ℕ := if position ≤ length then position else position + 1

section

variable {α : Type} {front back : List α} {base mark : α}

theorem getElem?_front {index : ℕ} (h : index ≤ front.length) :
    (front ++ base :: mark :: back)[index]? = (front ++ base :: back)[index]? := by
  rcases Nat.lt_or_eq_of_le h with hlt | rfl
  · rw [List.getElem?_append_left hlt, List.getElem?_append_left hlt]
  · simp

theorem getElem?_back (index : ℕ) :
    (front ++ base :: mark :: back)[front.length + index + 2]? =
      (front ++ base :: back)[front.length + index + 1]? := by
  rw [List.getElem?_append_right (by omega), List.getElem?_append_right (by omega),
    show front.length + index + 2 - front.length = index + 1 + 1 by omega,
    show front.length + index + 1 - front.length = index + 1 by omega]
  simp

theorem getElem?_shifted (front back : List α) (base mark : α) (position : ℕ) :
    (front ++ base :: mark :: back)[shifted front.length position]? = (front ++ base :: back)[position]? := by
  rw [shifted]
  split_ifs with hfront
  · exact getElem?_front hfront
  · obtain ⟨index, rfl⟩ : ∃ index, position = front.length + index + 1 := ⟨position - front.length - 1, by omega⟩
    exact getElem?_back index

theorem take_front {position : ℕ} (h : position ≤ front.length) :
    (front ++ base :: mark :: back).take position = (front ++ base :: back).take position := by
  rw [List.take_append_of_le_length h, List.take_append_of_le_length h]

theorem take_back (unit : α) (more : List α) (index : ℕ) :
    (front ++ unit :: more).take (front.length + index + 1) = front ++ unit :: more.take index := by
  rw [List.take_append, List.take_of_length_le (by omega),
    show front.length + index + 1 - front.length = index + 1 by omega, List.take_succ_cons]

theorem take_mark (index : ℕ) :
    (front ++ base :: mark :: back).take (front.length + index + 2) = front ++ base :: mark :: back.take index :=
  take_back base (mark :: back) (index + 1)

end

/-! ## What looks through the mark -/

section

variable (tables : Tables) {front back : List TextUnit} {base mark : TextUnit} (hclass : mark.class' = base.class')

include hclass in
theorem numberFirst_mark (behind before : List TextUnit) :
    numberFirst (behind ++ mark :: base :: before) = numberFirst (behind ++ base :: before) := by
  induction behind with
  | nil =>
    simp only [List.nil_append, numberFirst, hclass]
    cases base.class' <;> rfl
  | cons unit rest ih => simp only [List.cons_append, numberFirst, ih]

include hclass in
theorem precededByNumber_mark (position : ℕ) :
    precededByNumber (front ++ base :: mark :: back) (front.length + position + 2) =
      precededByNumber (front ++ base :: back) (front.length + position + 1) := by
  rw [precededByNumber, precededByNumber, take_mark, take_back]
  simp only [List.reverse_append, List.reverse_cons, List.append_assoc, List.singleton_append]
  exact numberFirst_mark hclass _ _

include hclass in
theorem previousSkippingSpaces_mark (hspace : base.class' ≠ .sp) (position : ℕ) :
    (previousSkippingSpaces (front ++ base :: mark :: back) (front.length + position + 2)).map (·.class') =
      (previousSkippingSpaces (front ++ base :: back) (front.length + position + 1)).map (·.class') := by
  rw [previousSkippingSpaces, previousSkippingSpaces, take_mark, take_back]
  simp only [List.reverse_append, List.reverse_cons, List.append_assoc, List.singleton_append,
    List.find?_append]
  cases (back.take position).reverse.find? fun unit => unit.class' ≠ .sp with
  | none => simp [hclass, hspace]
  | some unit => simp

end

/-! ## Rules that are not asked -/

namespace Surroundings

/-- what follows the unit behind a position matters to LB15c and LB25 alone -/
theorem rules_following {s : Surroundings} {following : Option LineBreakClass}
    (h15c : { s with following := following }.lb15c = s.lb15c)
    (h25 : { s with following := following }.lb25Opening = s.lb25Opening) :
    { s with following := following }.rules = s.rules := by
  unfold rules bound
  rw [h15c, h25]
  rfl

theorem rules_evenIndicators {s : Surroundings} (even : Bool) (h : ¬s.lb30a) :
    { s with evenIndicators := even }.rules = s.rules := by
  have h' : ¬{ s with evenIndicators := even }.lb30a := h
  unfold rules
  rw [if_neg h, if_neg h']
  rfl

/-- what a mark behind the unit before a position changes of the surroundings -/
def behindMark (s : Surroundings) (eastAsian number : Bool) : Surroundings :=
  { s with beforeEastAsian := eastAsian, twoBefore := some s.before, precededByNumberBefore := number }

/-- the rules decide as without the mark where none of those that look there applied -/
theorem rules_behindMark {s : Surroundings} {eastAsian number : Bool} (h20a : ¬s.lb20a) (h21a : ¬s.lb21a)
    (hnumber : s.before ∈ [.cl, .cp] → ¬s.lb25Affix ∧ number = false) (hprevious : s.before ∈ [.cl, .cp] →
      s.precededByNumber = false)
    (hclosing : s.before = .cp → s.after ∈ [.al, .hl, .nu] → eastAsian = s.beforeEastAsian) :
    (s.behindMark eastAsian number).rules = s.rules := by
  have h20a' : (s.behindMark eastAsian number).lb20a = s.lb20a := by
    rw [Bool.eq_false_iff.2 h20a]
    simp only [lb20a, behindMark, decide_eq_false_iff_not, List.mem_cons, List.not_mem_nil, or_false]
    grind
  have h21a' : (s.behindMark eastAsian number).lb21a = s.lb21a := by
    rw [Bool.eq_false_iff.2 h21a]
    simp only [lb21a, behindMark, decide_eq_false_iff_not, List.mem_cons, List.not_mem_nil, or_false]
    grind
  have h25' : (s.behindMark eastAsian number).lb25Affix = s.lb25Affix := by
    by_cases hbefore : s.before ∈ [.cl, .cp]
    · obtain ⟨hnone, rfl⟩ := hnumber hbefore
      rw [Bool.eq_false_iff.2 hnone]
      simp [lb25Affix, behindMark, hprevious hbefore]
    · simp only [lb25Affix, behindMark, hbefore, false_and, or_false]
  have h30' : (s.behindMark eastAsian number).lb30Closing = s.lb30Closing := by
    by_cases hbefore : s.before = .cp ∧ s.after ∈ [.al, .hl, .nu]
    · rw [lb30Closing, lb30Closing, behindMark, hclosing hbefore.1 hbefore.2]
    · simp only [lb30Closing, behindMark]
      grind
  unfold rules bound
  rw [h20a', h21a', h25', h30']
  rfl

end Surroundings

/-! ## The same rules at every other position -/

section

variable (tables : Tables) {front back : List TextUnit} {base mark : TextUnit}

/-- the rules that a mark behind the base could change are not asked, or answer the same -/
structure Transparent (front back : List TextUnit) (base mark : TextUnit) : Prop where
  /-- LB15c and LB25 do not look past the base -/
  ahead : ∀ before, Beside (front ++ base :: back) front.length before base →
    ¬(surroundings tables (front ++ base :: back) front.length before base).lb15c ∧
      (base.class' = .op → ¬(surroundings tables (front ++ base :: back) front.length before base).lb25Opening)
  /-- LB20a, LB21a and LB25 do not look past it either, and LB30 sees one width -/
  behind : ∀ after, Beside (front ++ base :: back) (front.length + 1) base after →
    ¬(surroundings tables (front ++ base :: back) (front.length + 1) base after).lb20a ∧
      ¬(surroundings tables (front ++ base :: back) (front.length + 1) base after).lb21a ∧
      (base.class' ∈ [.cl, .cp] →
        ¬(surroundings tables (front ++ base :: back) (front.length + 1) base after).lb25Affix) ∧
      (base.class' = .cp → after.class' ∈ [.al, .hl, .nu] →
        tables.isEastAsian mark.character = tables.isEastAsian base.character)
  /-- a quotation mark as the base has no East Asian character in front of it -/
  quoted : base.class' = .qu → tables.isEastAsian base.character = false ∧
    (previous front front.length).any (tables.isEastAsian ·.character) = false
  /-- one behind the base that is followed by an East Asian character sees one width -/
  quoting : back[0]?.any (·.class' = .qu) → back[1]?.any (tables.isEastAsian ·.character) →
    tables.isEastAsian mark.character = tables.isEastAsian base.character
  /-- the base does not count in front of a pair of regional indicators -/
  indicators : base.class' = .ri → (∃ unit ∈ front, unit.class' ≠ .ri) ∨
    ∀ position before after, front.length < position → Beside (front ++ base :: back) position before after →
      ¬(before.class' = .ri ∧ after.class' = .ri)

theorem previous_front {position : ℕ} (h : position ≤ front.length + 1) :
    previous (front ++ base :: mark :: back) position = previous (front ++ base :: back) position := by
  cases position with
  | zero => rfl
  | succ index => exact getElem?_front (by omega)

theorem previous_back (index : ℕ) :
    previous (front ++ base :: mark :: back) (front.length + index + 3) =
      previous (front ++ base :: back) (front.length + index + 2) :=
  getElem?_back index

theorem holdsQuotation_front {index : ℕ} (h : index < front.length) :
    holdsQuotation tables (front ++ base :: mark :: back) index =
      holdsQuotation tables (front ++ base :: back) index := by
  rw [holdsQuotation, holdsQuotation, getElem?_front h.le, getElem?_front h, previous_front (by omega)]

theorem holdsQuotation_back {index : ℕ} (h : Transparent tables front back base mark) :
    holdsQuotation tables (front ++ base :: mark :: back) (front.length + index + 2) =
      holdsQuotation tables (front ++ base :: back) (front.length + index + 1) := by
  rw [holdsQuotation, holdsQuotation, getElem?_back]
  have hnext : (front ++ base :: mark :: back)[front.length + index + 2 + 1]? =
      (front ++ base :: back)[front.length + index + 1 + 1]? := getElem?_back (index + 1)
  rw [hnext]
  cases index with
  | zero =>
    have hmark : previous (front ++ base :: mark :: back) (front.length + 0 + 2) = some mark := by simp [previous]
    have hbase : previous (front ++ base :: back) (front.length + 0 + 1) = some base := by simp [previous]
    have hfirst : (front ++ base :: back)[front.length + 0 + 1]? = back[0]? := by
      rw [List.getElem?_append_right (by omega), show front.length + 0 + 1 - front.length = 1 by omega]
      rfl
    have hsecond : (front ++ base :: back)[front.length + 0 + 1 + 1]? = back[1]? := by
      rw [List.getElem?_append_right (by omega), show front.length + 0 + 1 + 1 - front.length = 2 by omega]
      rfl
    rw [hmark, hbase, hfirst, hsecond]
    by_cases hwidth : back[0]?.any (·.class' = .qu) ∧ back[1]?.any (tables.isEastAsian ·.character)
    · simp only [Option.any_some, h.quoting hwidth.1 hwidth.2]
    · cases hunit : back[0]? with
      | none => rfl
      | some unit =>
        rw [hunit] at hwidth
        by_cases hquotation : unit.class' = .qu
        · have hnarrow : back[1]?.any (tables.isEastAsian ·.character) = false := by
            simpa [hquotation] using hwidth
          simp [hnarrow]
        · simp [hquotation]
  | succ index =>
    have hprevious : previous (front ++ base :: mark :: back) (front.length + (index + 1) + 2) =
        previous (front ++ base :: back) (front.length + (index + 1) + 1) := previous_back index
    rw [hprevious]

theorem evenIndicators_mark (index : ℕ)
    (h : base.class' = .ri → ∃ unit ∈ front, unit.class' ≠ .ri) :
    precededByEvenRegionalIndicators (front ++ base :: mark :: back) (front.length + index + 2) =
      precededByEvenRegionalIndicators (front ++ base :: back) (front.length + index + 1) := by
  rw [precededByEvenRegionalIndicators, precededByEvenRegionalIndicators, take_mark, take_back, List.takeWhile_append,
    List.takeWhile_append]
  by_cases hall : (front.takeWhile fun unit => unit.class' = .ri).length = front.length
  · have hbase : base.class' ≠ .ri := by
      intro hri
      obtain ⟨unit, hmem, hunit⟩ := h hri
      have hfront := (List.takeWhile_prefix fun unit : TextUnit => unit.class' = .ri).eq_of_length hall
      rw [← hfront] at hmem
      exact hunit (by simpa using List.mem_takeWhile_imp hmem)
    rw [if_pos hall, if_pos hall, List.takeWhile_cons, List.takeWhile_cons]
    simp [hbase]
  · rw [if_neg hall, if_neg hall]

/-- in front of the base a position sees the same units -/
theorem surroundings_front {position : ℕ} (h : position + 1 < front.length) (before after : TextUnit) :
    surroundings tables (front ++ base :: mark :: back) (position + 1) before after =
      surroundings tables (front ++ base :: back) (position + 1) before after := by
  have htwo : twoBefore (front ++ base :: mark :: back) (position + 1) =
      twoBefore (front ++ base :: back) (position + 1) := by
    cases position with
    | zero => rfl
    | succ position => exact getElem?_front (by omega)
  simp only [surroundings, previousSkippingSpaces, precededByNumber, precededByEvenRegionalIndicators,
    quotationProhibits, Nat.add_sub_cancel, take_front h.le, take_front (Nat.le_of_succ_le h.le), htwo,
    @getElem?_front _ front back base mark _ h, holdsQuotation_front tables h,
    holdsQuotation_front tables (Nat.lt_of_succ_lt h)]

theorem previous_base (more : List TextUnit) :
    previous (front ++ base :: more) front.length = previous front front.length := by
  cases hlength : front.length with
  | zero => rfl
  | succ index =>
    simp only [previous]
    exact List.getElem?_append_left (by omega)

theorem holdsQuotation_base (h : Transparent tables front back base mark) :
    holdsQuotation tables (front ++ base :: mark :: back) front.length =
      holdsQuotation tables (front ++ base :: back) front.length := by
  by_cases hquotation : base.class' = .qu
  · have hnarrow := (h.quoted hquotation).2
    simp [holdsQuotation, previous_base, hquotation, hnarrow]
  · simp [holdsQuotation, hquotation]

/-- the unit of the mark holds what follows it as the base does -/
theorem holdsQuotation_mark (hclass : mark.class' = base.class') (h : Transparent tables front back base mark) :
    holdsQuotation tables (front ++ base :: mark :: back) (front.length + 1) =
      holdsQuotation tables (front ++ base :: back) front.length := by
  have hbase : previous (front ++ base :: mark :: back) (front.length + 1) = some base := by simp [previous]
  by_cases hquotation : base.class' = .qu
  · obtain ⟨hnarrow, hfront⟩ := h.quoted hquotation
    simp [holdsQuotation, previous_base, hbase, hclass, hquotation, hnarrow, hfront]
  · simp [holdsQuotation, hclass, hquotation]

/-- directly in front of the base the rules decide as without the mark -/
theorem rules_ahead (hclass : mark.class' = base.class') (h : Transparent tables front back base mark)
    {before : TextUnit} (hbeside : Beside (front ++ base :: back) front.length before base) :
    (surroundings tables (front ++ base :: mark :: back) front.length before base).rules =
      (surroundings tables (front ++ base :: back) front.length before base).rules := by
  obtain ⟨h15c, h25⟩ := h.ahead before hbeside
  obtain ⟨index, hlength⟩ : ∃ index, front.length = index + 1 := by
    cases hlength : front.length with
    | zero => rw [hlength] at hbeside; cases hbeside.1
    | succ index => exact ⟨index, rfl⟩
  have hsame : surroundings tables (front ++ base :: mark :: back) front.length before base =
      { surroundings tables (front ++ base :: back) front.length before base with following := some base.class' } := by
    have htwo : twoBefore (front ++ base :: mark :: back) front.length =
        twoBefore (front ++ base :: back) front.length := by
      rw [hlength]
      cases index with
      | zero => rfl
      | succ index => exact getElem?_front (by omega)
    have hquotation : quotationProhibits tables (front ++ base :: mark :: back) front.length =
        quotationProhibits tables (front ++ base :: back) front.length := by
      simp only [quotationProhibits, holdsQuotation_base tables h,
        holdsQuotation_front tables (show front.length - 1 < front.length by omega)]
    have hfollowing : (front ++ base :: mark :: back)[front.length + 1]? = some mark := by
      rw [List.getElem?_append_right (by omega), show front.length + 1 - front.length = 1 by omega]
      rfl
    simp only [surroundings, previousSkippingSpaces, precededByNumber, precededByEvenRegionalIndicators,
      take_front (Nat.le_refl _), take_front (Nat.sub_le _ 1), htwo, hquotation, hfollowing, Option.map_some, hclass]
  rw [hsame]
  refine Surroundings.rules_following ?_ ?_
  · rw [Bool.eq_false_iff.2 h15c]
    simp only [Surroundings.lb15c, surroundings_after]
    grind
  · by_cases hop : base.class' = .op
    · rw [Bool.eq_false_iff.2 (h25 hop)]
      simp [Surroundings.lb25Opening, hop]
    · simp only [Surroundings.lb25Opening, surroundings_after, hop, false_and, or_false]

/-- behind the mark the rules decide as behind its base -/
theorem rules_mark (hclass : mark.class' = base.class') (habsorbs : base.class'.absorbsCombining)
    (h : Transparent tables front back base mark) {after : TextUnit}
    (hbeside : Beside (front ++ base :: back) (front.length + 1) base after) :
    (surroundings tables (front ++ base :: mark :: back) (front.length + 2) mark after).rules =
      (surroundings tables (front ++ base :: back) (front.length + 1) base after).rules := by
  obtain ⟨h20a, h21a, h25, h30⟩ := h.behind after hbeside
  have hspace : base.class' ≠ .sp := by
    intro hsp
    simp [hsp, LineBreakClass.absorbsCombining] at habsorbs
  have htwo : twoBefore (front ++ base :: mark :: back) (front.length + 2) = some base := by simp [twoBefore]
  have hskips := @previousSkippingSpaces_mark front back base mark hclass hspace 0
  have hnumber := @precededByNumber_mark front back base mark hclass 0
  have hquotation : quotationProhibits tables (front ++ base :: mark :: back) (front.length + 2) =
      quotationProhibits tables (front ++ base :: back) (front.length + 1) := by
    simp only [quotationProhibits, Nat.add_sub_cancel, show front.length + 2 - 1 = front.length + 1 by omega,
      holdsQuotation_mark tables hclass h]
    have hback := @holdsQuotation_back tables front back base mark 0 h
    rw [Nat.add_zero] at hback
    rw [hback]
    simp
  have hfollowing : (front ++ base :: mark :: back)[front.length + 2 + 1]? =
      (front ++ base :: back)[front.length + 1 + 1]? := getElem?_back 1
  rw [Nat.add_zero] at hskips hnumber
  have hsame : surroundings tables (front ++ base :: mark :: back) (front.length + 2) mark after =
      { (surroundings tables (front ++ base :: back) (front.length + 1) base after).behindMark
          (tables.isEastAsian mark.character)
          (precededByNumber (front ++ base :: mark :: back) (front.length + 1)) with
        evenIndicators :=
          precededByEvenRegionalIndicators (front ++ base :: mark :: back) (front.length + 2) } := by
    simp only [surroundings, Surroundings.behindMark, hclass, hskips, hnumber, htwo, hquotation, hfollowing,
      Option.map_some, show front.length + 2 - 1 = front.length + 1 by omega]
  have hindicators : { (surroundings tables (front ++ base :: back) (front.length + 1) base after).behindMark
          (tables.isEastAsian mark.character)
          (precededByNumber (front ++ base :: mark :: back) (front.length + 1)) with
        evenIndicators :=
          precededByEvenRegionalIndicators (front ++ base :: mark :: back) (front.length + 2) }.rules =
      ((surroundings tables (front ++ base :: back) (front.length + 1) base after).behindMark
        (tables.isEastAsian mark.character)
        (precededByNumber (front ++ base :: mark :: back) (front.length + 1))).rules := by
    by_cases hrun : base.class' = .ri → ∃ unit ∈ front, unit.class' ≠ .ri
    · have heven := @evenIndicators_mark front back base mark 0 hrun
      rw [Nat.add_zero] at heven
      rw [heven]
      rfl
    · rw [Classical.not_imp] at hrun
      have hpairs := (h.indicators hrun.1).resolve_left hrun.2
      exact Surroundings.rules_evenIndicators _ fun hpair =>
        hpairs _ _ _ (Nat.lt_succ_self _) hbeside (of_decide_eq_true hpair)
  have hseen := seen_surroundings tables hbeside.1 hbeside.2.1
  have hnumberBefore : precededByNumber (front ++ base :: mark :: back) (front.length + 1) =
      precededByNumber (front ++ base :: back) (front.length + 1) := by
    rw [precededByNumber, precededByNumber, take_back _ _ 0, take_back _ _ 0]
    rfl
  have hclosed : base.class' ∈ [.cl, .cp] → precededByNumber (front ++ base :: back) (front.length + 1) = false := by
    intro hbase
    refine hseen.unnumbered ?_
    simp only [surroundings_before, List.mem_cons, List.not_mem_nil, or_false] at hbase ⊢
    grind
  rw [hsame, hindicators, Surroundings.rules_behindMark h20a h21a _ hclosed h30]
  intro hbase
  exact ⟨h25 hbase, hnumberBefore.trans (hclosed hbase)⟩

/-- further on the rules decide as without the mark -/
theorem rules_back (hclass : mark.class' = base.class') (habsorbs : base.class'.absorbsCombining)
    (h : Transparent tables front back base mark) (index : ℕ) {before after : TextUnit}
    (hbeside : Beside (front ++ base :: back) (front.length + index + 2) before after) :
    (surroundings tables (front ++ base :: mark :: back) (front.length + index + 3) before after).rules =
      (surroundings tables (front ++ base :: back) (front.length + index + 2) before after).rules := by
  have hspace : base.class' ≠ .sp := by
    intro hsp
    simp [hsp, LineBreakClass.absorbsCombining] at habsorbs
  have htwo : (twoBefore (front ++ base :: mark :: back) (front.length + index + 3)).map (·.class') =
      (twoBefore (front ++ base :: back) (front.length + index + 2)).map (·.class') := by
    simp only [twoBefore]
    cases index with
    | zero =>
      rw [List.getElem?_append_right (by omega), show front.length + 0 + 1 - front.length = 1 by omega]
      simp [hclass]
    | succ index => exact congrArg _ (getElem?_back index)
  have hskips : (previousSkippingSpaces (front ++ base :: mark :: back) (front.length + index + 3)).map (·.class') =
      (previousSkippingSpaces (front ++ base :: back) (front.length + index + 2)).map (·.class') :=
    previousSkippingSpaces_mark hclass hspace (index + 1)
  have hnumber : precededByNumber (front ++ base :: mark :: back) (front.length + index + 3) =
      precededByNumber (front ++ base :: back) (front.length + index + 2) := precededByNumber_mark hclass (index + 1)
  have hnumberBefore := @precededByNumber_mark front back base mark hclass index
  have hquotation : quotationProhibits tables (front ++ base :: mark :: back) (front.length + index + 3) =
      quotationProhibits tables (front ++ base :: back) (front.length + index + 2) := by
    have hback := @holdsQuotation_back tables front back base mark index h
    have hback' := @holdsQuotation_back tables front back base mark (index + 1) h
    simp only [quotationProhibits, show front.length + index + 3 - 1 = front.length + index + 2 by omega,
      show front.length + index + 2 - 1 = front.length + index + 1 by omega, hback]
    rw [show holdsQuotation tables (front ++ base :: mark :: back) (front.length + index + 3) =
      holdsQuotation tables (front ++ base :: back) (front.length + index + 2) from hback']
    simp
  have hfollowing : (front ++ base :: mark :: back)[front.length + index + 3 + 1]? =
      (front ++ base :: back)[front.length + index + 2 + 1]? := getElem?_back (index + 2)
  have hsame : surroundings tables (front ++ base :: mark :: back) (front.length + index + 3) before after =
      { surroundings tables (front ++ base :: back) (front.length + index + 2) before after with
        evenIndicators :=
          precededByEvenRegionalIndicators (front ++ base :: mark :: back) (front.length + index + 3) } := by
    simp only [surroundings, hskips, hnumber, hnumberBefore, htwo, hquotation, hfollowing,
      show front.length + index + 3 - 1 = front.length + index + 2 by omega,
      show front.length + index + 2 - 1 = front.length + index + 1 by omega]
  rw [hsame]
  by_cases hrun : base.class' = .ri → ∃ unit ∈ front, unit.class' ≠ .ri
  · have heven : precededByEvenRegionalIndicators (front ++ base :: mark :: back) (front.length + index + 3) =
        precededByEvenRegionalIndicators (front ++ base :: back) (front.length + index + 2) :=
      evenIndicators_mark (index + 1) hrun
    rw [heven]
    rfl
  · rw [Classical.not_imp] at hrun
    have hpairs := (h.indicators hrun.1).resolve_left hrun.2
    exact Surroundings.rules_evenIndicators _ fun hpair =>
      hpairs _ _ _ (by omega) hbeside (of_decide_eq_true hpair)

/-! ## The same decisions -/

theorem decide_eq_of_rules {units units' : List TextUnit} {position position' : ℕ} (hpos : 0 < position)
    (hlength : position < units.length) (hunit : units'[position']? = units[position]?)
    (h : ∀ before after, Beside units position before after → ∃ before', previous units' position' = some before' ∧
      (surroundings tables units' position' before' after).rules =
        (surroundings tables units position before after).rules) :
    decide tables units' position' = decide tables units position := by
  rcases beside_or_attached hpos hlength with ⟨before, after, hbeside⟩ | hattached
  · obtain ⟨before', hbefore, hrules⟩ := h before after hbeside
    rw [decide_beside tables hbeside, decide_beside tables ⟨hbefore, hunit.trans hbeside.2.1, hbeside.2.2⟩, hrules]
  · rw [decide_attached tables hattached, decide_attached tables (hunit.symm ▸ hattached)]

/-- the mark changes no decision -/
theorem decide_shifted (hclass : mark.class' = base.class') (habsorbs : base.class'.absorbsCombining)
    (hbase : ¬base.attached) (h : Transparent tables front back base mark) {position : ℕ}
    (hposition : position ≤ (front ++ base :: back).length) :
    decide tables (front ++ base :: mark :: back) (shifted front.length position) =
      decide tables (front ++ base :: back) position := by
  have hunit := getElem?_shifted front back base mark position
  rcases Nat.eq_zero_or_pos position with rfl | hpos
  · rw [shifted, if_pos (Nat.zero_le _), decide_zero, decide_zero]
  · rcases Nat.lt_or_eq_of_le hposition with hlength | rfl
    · refine decide_eq_of_rules tables hpos hlength hunit fun before after hbeside => ?_
      rcases Nat.lt_trichotomy position front.length with hfront | rfl | hback
      · obtain ⟨index, rfl⟩ : ∃ index, position = index + 1 := ⟨position - 1, by omega⟩
        rw [shifted, if_pos hfront.le, previous_front (by omega)]
        exact ⟨before, hbeside.1, by rw [surroundings_front tables hfront]⟩
      · obtain rfl : after = base := by simpa using hbeside.2.1.symm
        rw [shifted, if_pos (Nat.le_refl _), previous_front (by omega)]
        exact ⟨before, hbeside.1, rules_ahead tables hclass h hbeside⟩
      · obtain ⟨index, rfl⟩ : ∃ index, position = front.length + index + 1 := ⟨position - front.length - 1, by omega⟩
        rw [shifted, if_neg (by omega)]
        cases index with
        | zero =>
          obtain rfl : before = base := by simpa [previous] using hbeside.1.symm
          exact ⟨mark, by simp [previous], rules_mark tables hclass habsorbs h hbeside⟩
        | succ index =>
          exact ⟨before, (previous_back index).trans hbeside.1, rules_back tables hclass habsorbs h index hbeside⟩
    · have hend : shifted front.length (front ++ base :: back).length = (front ++ base :: mark :: back).length := by
        rw [shifted, if_neg (by simp), List.length_append, List.length_append, List.length_cons, List.length_cons,
          List.length_cons]
        omega
      rw [hend, decide_end tables (by simp), decide_end tables (by simp)]

theorem pairIsLetterLike_shifted (hclass : mark.class' = base.class') (position : ℕ) :
    pairIsLetterLike (front ++ base :: mark :: back) (shifted front.length position) =
      pairIsLetterLike (front ++ base :: back) position := by
  have hprevious :
      (previous (front ++ base :: mark :: back) (shifted front.length position)).any (isLetterLike ·.class') =
      (previous (front ++ base :: back) position).any (isLetterLike ·.class') := by
    rw [shifted]
    split_ifs with hfront
    · rw [previous_front (by omega)]
    · obtain ⟨index, rfl⟩ : ∃ index, position = front.length + index + 1 := ⟨position - front.length - 1, by omega⟩
      cases index with
      | zero => simp [previous, hclass]
      | succ index => exact congrArg _ (previous_back index)
  simp only [pairIsLetterLike, hprevious, getElem?_shifted]

/-! ## Texts -/

/-- behind characters with these classes the others resolve as they do behind the sequence that is open there -/
theorem resolveFrom_append (classes : List LineBreakClass) (front back : List Char) :
    resolveFrom tables (opened classes) (front ++ back) =
      resolveFrom tables (opened classes) front ++
        resolveFrom tables (opened ((classesOf tables front).reverse ++ classes)) back := by
  induction front generalizing classes with
  | nil => rfl
  | cons character rest ih =>
    rw [List.cons_append, resolveFrom_cons, resolveFrom_cons, ih]
    simp [classesOf]

/-- the units of a text behind a base -/
def unitsBehind (c : LineBreakClass) (back : Text) : List TextUnit :=
  List.zipWith (tailored tables) (back.map (·.2)) (resolveFrom tables (some c) (back.map (·.1)))

def baseUnit (base : Char) (options : LineBreakOptions) : TextUnit :=
  tailored tables options ⟨base, tables.lineBreakClass base, false⟩

def markUnit (base mark : Char) : TextUnit := ⟨mark, tables.lineBreakClass base, true⟩

theorem resolve_units_base (front back : Text) {base : Char} (options : LineBreakOptions)
    (hbase : ¬(tables.lineBreakClass base).isMark) :
    (resolve tables (front ++ (base, options) :: back)).units =
      (resolve tables front).units ++
        baseUnit tables base options :: unitsBehind tables (tables.lineBreakClass base) back := by
  have hsplit := resolveFrom_append tables [] (front.map (·.1)) (base :: back.map (·.1))
  rw [opened, List.append_nil, resolveFrom_cons, opened, if_neg hbase] at hsplit
  have hlength : (front.map (·.2)).length = (resolveFrom tables none (front.map (·.1))).length := by
    rw [resolveFrom_length, List.length_map, List.length_map]
  simp only [resolve, List.map_append, List.map_cons]
  rw [hsplit, List.zipWith_append hlength]
  simp [baseUnit, unitsBehind, hbase]

theorem resolve_units_mark (front back : Text) {base mark : Char} (options : LineBreakOptions)
    (hbase : ¬(tables.lineBreakClass base).isMark) (habsorbs : (tables.lineBreakClass base).absorbsCombining)
    (hmark : tables.lineBreakClass mark = .cm) :
    (resolve tables (front ++ (base, options) :: (mark, options) :: back)).units =
      (resolve tables front).units ++ baseUnit tables base options :: markUnit tables base mark ::
        unitsBehind tables (tables.lineBreakClass base) back := by
  rw [resolve_units_base tables front _ options hbase]
  have hbehind : unitsBehind tables (tables.lineBreakClass base) ((mark, options) :: back) =
      markUnit tables base mark :: unitsBehind tables (tables.lineBreakClass base) back := by
    simp [unitsBehind, resolveFrom, hmark, habsorbs, tailored, markUnit]
  rw [hbehind]

/-- the text with the mark behind the base, which has the base's options -/
def withMark (front back : Text) (base mark : Char) (options : LineBreakOptions) : Text :=
  front ++ (base, options) :: (mark, options) :: back

/-- no line ends in front of the mark, and at every other position the decision is that of the text without it -/
def MarkTransparent (front back : Text) (base mark : Char) (options : LineBreakOptions) : Prop :=
  (opportunitiesWith tables (withMark front back base mark options))[front.length + 1]? = some .prohibited ∧
    ∀ position ≤ (front ++ (base, options) :: back).length,
      (opportunitiesWith tables (withMark front back base mark options))[shifted front.length position]? =
        (opportunitiesWith tables (front ++ (base, options) :: back))[position]?

/-- the options of the base leave its class, do not break around every unit, and no rule tells it from the base with the
mark -/
structure Unseen (front back : Text) (base mark : Char) (options : LineBreakOptions) : Prop where
  placed : options.lineBreak = .anywhere → options.wrap = false
  kept : (baseUnit tables base options).class' = tables.lineBreakClass base
  rules : Transparent tables (resolve tables front).units (unitsBehind tables (tables.lineBreakClass base) back)
    (baseUnit tables base options) (markUnit tables base mark)

theorem getLast?_withMark (front back : Text) (base mark : Char) (options : LineBreakOptions) :
    ((withMark front back base mark options).map (·.2)).getLast? =
      ((front ++ (base, options) :: back).map (·.2)).getLast? := by
  cases back with
  | nil => simp [withMark]
  | cons entry rest => simp [withMark, List.getLast?_cons_cons]

theorem lastWraps_withMark (front back : Text) (base mark : Char) (options : LineBreakOptions) :
    lastWraps ((withMark front back base mark options).map (·.2)) =
      lastWraps ((front ++ (base, options) :: back).map (·.2)) := by
  rw [lastWraps, lastWraps, getLast?_withMark]

theorem options_shifted (front back : Text) (base mark : Char) (options : LineBreakOptions) (position : ℕ) :
    ((withMark front back base mark options).map (·.2))[shifted front.length position]? =
      ((front ++ (base, options) :: back).map (·.2))[position]? := by
  have h := getElem?_shifted (front.map (·.2)) (back.map (·.2)) options options position
  simpa [withMark] using h

theorem wrapsAt_withMark (front back : Text) (base mark : Char) (options : LineBreakOptions) (position : ℕ) :
    wrapsAt ((withMark front back base mark options).map (·.2)) (shifted front.length position) =
      wrapsAt ((front ++ (base, options) :: back).map (·.2)) position := by
  rw [wrapsAt, wrapsAt, getLast?_withMark, options_shifted]

end

end Render.Layout.LineBreak
