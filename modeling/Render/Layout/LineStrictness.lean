/-
Loosening the strictness of line breaking.

`line-break` works by rewriting classes, so two levels give one text two lists of units, which differ in the classes of
some characters only. What the rules find further away does not tell the rewritten classes from one another
(`indifferent`): the decision at a position is a matter of the two classes next to it, and of which of them loosening
has made ideographs (`Loosened`). As the right-hand side of a rule an ideograph is freer than what it was. As the
left-hand side it is not: LB12a and LB23a bind it where they did not bind the class before, and `keep-all` takes it for
a letter. `Tightened` lists these cases, and a text is free of them if and only if loosening it never removes a break.
-/
import Render.Layout.LineBreak

namespace Render.Layout.LineBreak

/-! ## Classes that the looks further away do not tell apart -/

def indifferent (c : LineBreakClass) : Bool := c ∈ [.ns, .inseparable, .ex, .hh, .ba, .po, .pr, .id]

def blurred (c : LineBreakClass) : LineBreakClass := if indifferent c then .id else c

theorem blurred_eq_iff {c d : LineBreakClass} (hd : indifferent d = false) : blurred c = d ↔ c = d := by
  rw [blurred]
  by_cases hc : indifferent c
  · rw [if_pos hc]
    constructor
    · rintro rfl
      cases hd
    · rintro rfl
      rw [hc] at hd
      cases hd
  · rw [if_neg hc]

theorem map_blurred_eq_iff {c : Option LineBreakClass} {d : LineBreakClass} (hd : indifferent d = false) :
    c.map blurred = some d ↔ c = some d := by
  cases c with
  | none => simp
  | some c => simp [blurred_eq_iff hd]

def TextUnit.blurred (unit : TextUnit) : TextUnit := { unit with class' := LineBreak.blurred unit.class' }

def Surroundings.blurred (s : Surroundings) : Surroundings :=
  { s with
    skippingSpaces := s.skippingSpaces.map LineBreak.blurred
    twoBefore := s.twoBefore.map LineBreak.blurred
    following := s.following.map LineBreak.blurred }

/-- the rules look at classes further away only for what is told apart -/
theorem Surroundings.rules_blurred (s : Surroundings) : s.blurred.rules = s.rules := by
  have h8 : s.blurred.lb8 = s.lb8 := by simp only [lb8, blurred, map_blurred_eq_iff (d := .zw) rfl]
  have h14 : s.blurred.lb14 = s.lb14 := by simp only [lb14, blurred, map_blurred_eq_iff (d := .op) rfl]
  have h15c : s.blurred.lb15c = s.lb15c := by simp only [lb15c, blurred, map_blurred_eq_iff (d := .nu) rfl]
  have h16 : s.blurred.lb16 = s.lb16 := by
    simp only [lb16, blurred, List.mem_cons, List.not_mem_nil, map_blurred_eq_iff (d := .cl) rfl,
      map_blurred_eq_iff (d := .cp) rfl]
  have h17 : s.blurred.lb17 = s.lb17 := by simp only [lb17, blurred, map_blurred_eq_iff (d := .b2) rfl]
  have h20a : s.blurred.lb20a = s.lb20a := by
    simp only [lb20a, blurred, List.mem_cons, List.not_mem_nil, Option.map_eq_none_iff,
      map_blurred_eq_iff (d := .bk) rfl, map_blurred_eq_iff (d := .cr) rfl, map_blurred_eq_iff (d := .lf) rfl,
      map_blurred_eq_iff (d := .nl) rfl, map_blurred_eq_iff (d := .sp) rfl, map_blurred_eq_iff (d := .zw) rfl,
      map_blurred_eq_iff (d := .gl) rfl]
  have h21a : s.blurred.lb21a = s.lb21a := by simp only [lb21a, blurred, map_blurred_eq_iff (d := .hl) rfl]
  have h25 : s.blurred.lb25Opening = s.lb25Opening := by
    simp only [lb25Opening, blurred, List.mem_cons, List.not_mem_nil, map_blurred_eq_iff (d := .nu) rfl,
      map_blurred_eq_iff (d := .is) rfl]
  unfold rules bound
  rw [h8, h14, h15c, h16, h17, h20a, h21a, h25]
  rfl

section

variable (tables : Tables)

theorem previous_map (f : TextUnit → TextUnit) (units : List TextUnit) (position : ℕ) :
    previous (units.map f) position = (previous units position).map f := by
  cases position <;> simp [previous]

theorem twoBefore_map (f : TextUnit → TextUnit) (units : List TextUnit) (position : ℕ) :
    twoBefore (units.map f) position = (twoBefore units position).map f := by
  unfold twoBefore
  split <;> simp

theorem numberFirst_blurred (units : List TextUnit) :
    numberFirst (units.map TextUnit.blurred) = numberFirst units := by
  induction units with
  | nil => rfl
  | cons unit rest ih =>
    obtain ⟨character, c, attached⟩ := unit
    simp only [List.map_cons, numberFirst, TextUnit.blurred, ih]
    cases c <;> rfl

theorem holdsQuotation_blurred (units : List TextUnit) (index : ℕ) :
    holdsQuotation tables (units.map TextUnit.blurred) index = holdsQuotation tables units index := by
  simp only [holdsQuotation, previous_map, List.getElem?_map, Option.any_map, TextUnit.blurred,
    blurred_eq_iff (d := .qu) rfl]

theorem surroundings_blurred (units : List TextUnit) (position : ℕ) (before after : TextUnit) :
    surroundings tables (units.map TextUnit.blurred) position before after =
      (surroundings tables units position before after).blurred := by
  have hskips : previousSkippingSpaces (units.map TextUnit.blurred) position =
      (previousSkippingSpaces units position).map TextUnit.blurred := by
    simp only [previousSkippingSpaces, ← List.map_take, ← List.map_reverse, List.find?_map, Function.comp_def,
      TextUnit.blurred, ne_eq, blurred_eq_iff (d := .sp) rfl]
  have hnumber : ∀ position, precededByNumber (units.map TextUnit.blurred) position =
      precededByNumber units position := by
    intro position
    rw [precededByNumber, ← List.map_take, ← List.map_reverse, numberFirst_blurred, precededByNumber]
  have hindicators : precededByEvenRegionalIndicators (units.map TextUnit.blurred) position =
      precededByEvenRegionalIndicators units position := by
    simp only [precededByEvenRegionalIndicators, ← List.map_take, List.takeWhile_map, List.length_map,
      Function.comp_def, TextUnit.blurred, blurred_eq_iff (d := .ri) rfl]
  have hquotation : quotationProhibits tables (units.map TextUnit.blurred) position =
      quotationProhibits tables units position := by
    simp only [quotationProhibits, holdsQuotation_blurred]
  simp only [surroundings, Surroundings.blurred, hskips, hnumber, hindicators, hquotation, twoBefore_map,
    List.getElem?_map, Option.map_map]
  rfl

/-- two lists of units that are told apart by indifferent classes only give the same decisions beside the same
classes -/
theorem rules_of_blurred {units units' : List TextUnit} (h : units.map TextUnit.blurred = units'.map TextUnit.blurred)
    (position : ℕ) (before after : TextUnit) :
    (surroundings tables units position before after).rules =
      (surroundings tables units' position before after).rules := by
  rw [← Surroundings.rules_blurred, ← surroundings_blurred, h, surroundings_blurred, Surroundings.rules_blurred]

end

/-! ## Loosening one class -/

/-- the classes that some level makes ideographs -/
def loosens (c : LineBreakClass) : Bool := c ∈ [.ns, .inseparable, .ex, .hh, .ba, .po, .pr]

/-- `c'` is `c`, or the ideograph that loosening makes of it -/
def Loosened (c c' : LineBreakClass) : Prop := c' = c ∨ loosens c ∧ c' = .id

namespace Surroundings

theorem bound_after_ideograph {s : Surroundings} (h : s.after = .id) :
    s.bound ↔ s.before ∈ [.bb, .pr, .is] ∨ s.before ∈ [.hy, .hh] ∧ s.twoBefore = some .hl := by
  simp [bound, lb20a, lb21, lb21a, lb21b, lb22, lb23, lb23a, lb24, lb25Affix, lb25Opening, lb25Infix, lb26, lb27, lb28,
    lb29, lb30Opening, lb30Closing, h]
  grind

theorem bound_before_ideograph {s : Surroundings} (h : s.before = .id) (hnumber : s.precededByNumber = false) :
    s.bound ↔ s.after ∈ [.ba, .hh, .hy, .ns, .inseparable, .po] := by
  simp [bound, lb20a, lb21, lb21a, lb21b, lb22, lb23, lb23a, lb24, lb25Affix, lb25Opening, lb25Infix, lb26, lb27, lb28,
    lb29, lb30Opening, lb30Closing, h, hnumber]
  grind

/-- what is not bound is not bound as an ideograph either, behind anything but a prefix -/
theorem bound_of_bound_after {s : Surroundings} (ha : loosens s.after) (hex : s.after ≠ .ex)
    (hp : s.before = .pr → s.after ∉ [.po, .pr]) (h : { s with after := .id }.bound) : s.bound := by
  rw [bound_after_ideograph rfl] at h
  simp only [loosens, decide_eq_true_eq, List.mem_cons, List.not_mem_nil, or_false] at ha
  simp only [List.mem_cons, List.not_mem_nil, or_false] at h hp
  simp only [bound, lb21, lb21a, lb22, lb25Infix, decide_eq_true_eq, List.mem_cons, List.not_mem_nil, or_false]
  grind

theorem breaks_after {s : Surroundings} (ha : loosens s.after) (hp : s.before = .pr → s.after ∉ [.po, .pr])
    (h : s.breaks) : { s with after := .id }.breaks := by
  rcases h with hhard | ⟨h6, h7, h8 | ⟨h8a, h11, h12a, h13, h14, h15c | ⟨h15d, h16, h17, hrest⟩⟩⟩
  · refine Or.inl ?_
    simp only [hardBreakEndsTheLine, decide_eq_true_eq] at hhard ⊢
    exact hhard.imp_right fun h => ⟨h.1, nofun⟩
  · exact Or.inr ⟨by simp [lb6], by simp [lb7], Or.inl h8⟩
  · simp only [lb15c, decide_eq_true_eq] at h15c
    simp [loosens, h15c.2.1] at ha
  · have h11' : ¬{ s with after := .id }.lb11 := by
      simp only [lb11, decide_eq_true_eq, not_or] at h11 ⊢
      exact ⟨h11.1, nofun⟩
    refine Or.inr ⟨by simp [lb6], by simp [lb7], Or.inr ⟨h8a, h11', by simp [lb12a], by simp [lb13], h14,
      Or.inr ⟨by simp [lb15d], by simp [lb16], by simp [lb17], ?_⟩⟩⟩
    rcases hrest with h18 | ⟨hbound, hlast⟩
    · exact Or.inl h18
    · have hex : s.after ≠ .ex := by
        intro hafter
        simp [lb13, hafter] at h13
      have hindicators : ¬s.lb30a := by
        intro h
        simp only [lb30a, decide_eq_true_eq] at h
        simp [loosens, h.2] at ha
      have hquotation := (hlast.resolve_left fun h => hindicators h.1).2.2
      exact Or.inr ⟨fun h => hbound (bound_of_bound_after ha hex hp h),
        Or.inr ⟨by simp [lb30a], by simp [lb30b], hquotation⟩⟩

/-- an ideograph in front of a position does not bind what its class did not, but for a postfix behind it -/
theorem bound_of_bound_before {s : Surroundings} {after : LineBreakClass} (ha : Loosened s.after after)
    (hnumber : s.precededByNumber = false) (hpo : after ≠ .po)
    (h : { s with before := .id, after := after }.bound) : s.bound := by
  have hafter := (bound_before_ideograph (s := { s with before := .id, after := after }) rfl hnumber).1 h
  simp only [List.mem_cons, List.not_mem_nil, or_false] at hafter
  have hsame : after = s.after := ha.resolve_right fun hid => by simp [hid.2] at hafter
  rw [hsame] at hafter hpo
  simp only [bound, lb21, lb22, decide_eq_true_eq, List.mem_cons, List.not_mem_nil, or_false]
  grind

theorem breaks_before {s : Surroundings} {after : LineBreakClass} (hseen : s.Seen) (hb : loosens s.before)
    (ha : Loosened s.after after) (hpo : after ≠ .po) (hgl : s.before = .hh → after ≠ .gl) (h : s.breaks) :
    { s with before := .id, after := after }.breaks := by
  simp only [loosens, decide_eq_true_eq] at hb
  have hskips := hseen.skips fun hspace => by simp [hspace] at hb
  have hnumber := hseen.unnumbered (by simp only [List.mem_cons, List.not_mem_nil, or_false] at hb ⊢; grind)
  have hsame : after ≠ .id → after = s.after := fun hid => ha.resolve_right fun h => hid h.2
  rcases h with hhard | ⟨h6, h7, h8 | ⟨h8a, h11, h12a, h13, h14, h15c | ⟨h15d, h16, h17, hrest⟩⟩⟩
  · simp only [hardBreakEndsTheLine, decide_eq_true_eq] at hhard
    grind
  · simp only [lb8, decide_eq_true_eq, hskips] at h8
    simp [Option.some.inj h8] at hb
  · simp only [lb15c, decide_eq_true_eq] at h15c
    simp [h15c.1] at hb
  · simp only [lb6, lb7, lb11, lb12a, lb13, lb15d, lb16, lb17, decide_eq_true_eq, List.mem_cons, List.not_mem_nil,
      or_false] at h6 h7 h11 h12a h13 h15d h16 h17 hb
    have hspace : s.before ≠ .sp := by grind
    rcases hrest with h18 | ⟨hbound, hlast⟩
    · simp only [lb18, decide_eq_true_eq] at h18
      exact absurd h18 hspace
    · have hindicators : ¬s.lb30a := by
        simp only [lb30a, decide_eq_true_eq]
        grind
      have hquotation := (hlast.resolve_left fun h => hindicators h.1).2.2
      refine Or.inr ⟨?_, ?_, Or.inr ⟨by simp [lb8a], ?_, ?_, ?_, h14, Or.inr ⟨?_, ?_, ?_, Or.inr
        ⟨fun h => hbound (bound_of_bound_before ha hnumber hpo h), Or.inr
          ⟨by simp [lb30a], by simp [lb30b], hquotation⟩⟩⟩⟩⟩ <;>
      · simp only [lb6, lb7, lb11, lb12a, lb13, lb15d, lb16, lb17, decide_eq_true_eq, List.mem_cons, List.not_mem_nil,
          or_false]
        grind

/-! ## Where loosening binds -/

/-- what loosening the classes next to a position does against the rules: an ideograph in front of a postfix (LB23a) or
of glue that a hyphen lets go (LB12a), and an ideograph behind a prefix (LB23a) -/
def binds (s : Surroundings) (before after : LineBreakClass) : Prop :=
  before ≠ s.before ∧ after = .po ∧ ¬s.lb21a ∨ s.before = .hh ∧ before ≠ .hh ∧ after = .gl ∧ ¬s.lb21a ∨
    before = .pr ∧ s.after ∈ [.po, .pr] ∧ after ≠ s.after

/-- the classes that `keep-all` takes for letters, or does behind some loosening -/
def letters (s : Surroundings) : Prop :=
  (isLetterLike s.before ∨ loosens s.before) ∧ (isLetterLike s.after ∨ loosens s.after)

theorem breaks_iff_of_letters {s : Surroundings} (hseen : s.Seen) (h : s.letters) :
    s.breaks ↔ ¬s.lb13 ∧ ¬s.bound := by
  obtain ⟨hb, ha⟩ := h
  simp only [isLetterLike, loosens, decide_eq_true_eq, List.mem_cons, List.not_mem_nil, or_false] at hb ha
  have hskips := hseen.skips (by grind)
  have hquotation := hseen.unquoted (by grind) (by grind)
  have hhard : s.hardBreakEndsTheLine = false := by
    simp only [hardBreakEndsTheLine, decide_eq_false_iff_not, List.mem_cons, List.not_mem_nil, or_false]
    grind
  have hopen : s.lb6 = false ∧ s.lb7 = false ∧ s.lb8a = false ∧ s.lb11 = false ∧ s.lb12a = false ∧ s.lb15c = false ∧
      s.lb15d = false ∧ s.lb17 = false ∧ s.lb18 = false ∧ s.lb30a = false ∧ s.lb30b = false := by
    simp only [lb6, lb7, lb8a, lb11, lb12a, lb15c, lb15d, lb17, lb18, lb30a, lb30b, decide_eq_false_iff_not,
      List.mem_cons, List.not_mem_nil, or_false]
    refine ⟨?_, ?_, ?_, ?_, ?_, ?_, ?_, ?_, ?_, ?_, ?_⟩ <;> grind
  have hspaces : s.lb8 = false ∧ s.lb14 = false ∧ s.lb16 = false := by
    simp only [lb8, lb14, lb16, hskips, decide_eq_false_iff_not, List.mem_cons, List.not_mem_nil, or_false,
      Option.some.injEq]
    refine ⟨?_, ?_, ?_⟩ <;> grind
  obtain ⟨h6, h7, h8a, h11, h12a, h15c, h15d, h17, h18, h30a, h30b⟩ := hopen
  obtain ⟨h8, h14, h16⟩ := hspaces
  simp [breaks, hhard, h6, h7, h8, h8a, h11, h12a, h14, h15c, h15d, h16, h17, h18, h30a, h30b, hquotation]

/-- behind spaces or a hard break the rules before LB19 can decide, elsewhere a rule that prohibits does -/
theorem not_breaks_of_held {s : Surroundings} (hhard : ¬s.hardBreakEndsTheLine) (hspace : s.before ≠ .sp)
    (h8 : s.skippingSpaces ≠ some .zw) (h : s.lb12a ∨ s.bound) : ¬s.breaks := by
  rintro (hhard' | ⟨-, -, h8' | ⟨-, -, h12a, -, -, h15c | ⟨-, -, -, h18 | ⟨hbound, -⟩⟩⟩⟩)
  · exact hhard hhard'
  · exact h8 (of_decide_eq_true h8')
  · exact hspace (of_decide_eq_true h15c).1
  · exact hspace (of_decide_eq_true h18)
  · exact h.elim h12a hbound

/-- a position that loosening binds had a break -/
theorem breaks_of_binds {s : Surroundings} {before after : LineBreakClass} (hseen : s.Seen)
    (hb : Loosened s.before before) (ha : Loosened s.after after) (h : s.binds before after) : s.breaks := by
  have hnumber : loosens s.before → s.precededByNumber = false := by
    intro hloosens
    simp only [loosens, decide_eq_true_eq, List.mem_cons, List.not_mem_nil, or_false] at hloosens
    refine hseen.unnumbered ?_
    simp only [List.mem_cons, List.not_mem_nil, or_false]
    grind
  rcases h with ⟨hbefore, hafter, h21a⟩ | ⟨hbefore, -, hafter, h21a⟩ | ⟨hbefore, hafter, hchanged⟩
  · have hloosens := (hb.resolve_left hbefore).1
    have hpo : s.after = .po := (ha.resolve_right fun hid => by simp [hafter] at hid).symm.trans hafter
    rw [breaks_iff_of_letters hseen ⟨Or.inr hloosens, Or.inr (by simp [hpo, loosens])⟩]
    have hn := hnumber hloosens
    simp only [loosens, decide_eq_true_eq, List.mem_cons, List.not_mem_nil, or_false] at hloosens
    refine ⟨by simp [lb13, hpo], ?_⟩
    rcases hloosens with h | h | h | h | h | h | h <;>
      simp [bound, h21a, lb20a, lb21, lb21b, lb22, lb23, lb23a, lb24, lb25Affix, lb25Opening, lb25Infix, lb26, lb27,
        lb28, lb29, lb30Opening, lb30Closing, hpo, hn, h]
  · have hgl : s.after = .gl := (ha.resolve_right fun hid => by simp [hafter] at hid).symm.trans hafter
    have hn := hnumber (by simp [hbefore, loosens])
    have hskips := hseen.skips (by simp [hbefore])
    have hquotation := hseen.unquoted (by simp [hbefore]) (by simp [hgl])
    have hbound : ¬s.bound := by
      simp [bound, h21a, lb20a, lb21, lb21b, lb22, lb23, lb23a, lb24, lb25Affix, lb25Opening, lb25Infix, lb26, lb27,
        lb28, lb29, lb30Opening, lb30Closing, hbefore, hgl, hn]
    simp [breaks, hardBreakEndsTheLine, lb6, lb7, lb8, lb8a, lb11, lb12a, lb13, lb14, lb15d, lb16, lb17, lb30a, lb30b,
      hbefore, hgl, hskips, hquotation, hbound]
  · have hpr : s.before = .pr := (hb.resolve_right fun hid => by simp [hbefore] at hid).symm.trans hbefore
    have hloosens : loosens s.after := (ha.resolve_left hchanged).1
    have hn := hnumber (by simp [hpr, loosens])
    rw [breaks_iff_of_letters hseen ⟨Or.inr (by simp [hpr, loosens]), Or.inr hloosens⟩]
    simp only [List.mem_cons, List.not_mem_nil, or_false] at hafter
    refine ⟨by rcases hafter with h | h <;> simp [lb13, h], ?_⟩
    rcases hafter with h | h <;>
      simp [bound, lb20a, lb21, lb21a, lb21b, lb22, lb23, lb23a, lb24, lb25Affix, lb25Opening, lb25Infix, lb26, lb27,
        lb28, lb29, lb30Opening, lb30Closing, hpr, h, hn]

/-- a position that loosening binds has no break -/
theorem not_breaks_of_binds {s : Surroundings} {before after : LineBreakClass} (hseen : s.Seen)
    (hb : Loosened s.before before) (ha : Loosened s.after after) (h : s.binds before after) :
    ¬{ s with before := before, after := after }.breaks := by
  have hskips : loosens s.before → s.skippingSpaces ≠ some .zw := by
    intro hloosens
    simp only [loosens, decide_eq_true_eq, List.mem_cons, List.not_mem_nil, or_false] at hloosens
    rw [hseen.skips (by grind)]
    grind
  rcases h with ⟨hbefore, rfl, -⟩ | ⟨hbefore, hchanged, rfl, -⟩ | ⟨rfl, -, hchanged⟩
  · obtain ⟨hloosens, rfl⟩ := hb.resolve_left hbefore
    exact not_breaks_of_held (by simp [hardBreakEndsTheLine]) (by simp) (hskips hloosens)
      (Or.inr (by simp [bound, lb23a]))
  · obtain ⟨hloosens, rfl⟩ := hb.resolve_left (hbefore ▸ hchanged)
    exact not_breaks_of_held (by simp [hardBreakEndsTheLine]) (by simp) (hskips hloosens) (Or.inl (by simp [lb12a]))
  · have hpr : s.before = .pr := (hb.resolve_right fun hid => by simp at hid).symm
    obtain ⟨-, rfl⟩ := ha.resolve_left hchanged
    exact not_breaks_of_held (by simp [hardBreakEndsTheLine]) (by simp) (hskips (by simp [hpr, loosens]))
      (Or.inr (by simp [bound, lb23a]))

theorem breaks_of_not_binds {s : Surroundings} {before after : LineBreakClass} (hseen : s.Seen)
    (hb : Loosened s.before before) (ha : Loosened s.after after) (hbinds : ¬s.binds before after) (h : s.breaks) :
    { s with before := before, after := after }.breaks := by
  rcases hb with hsame | ⟨hloosens, rfl⟩
  · rcases ha with hafter | ⟨hloosens, rfl⟩
    · rw [hsame, hafter]
      exact h
    · rw [hsame]
      refine breaks_after hloosens (fun hpr hpo => hbinds ?_) h
      refine Or.inr (Or.inr ⟨hsame.trans hpr, hpo, fun hid => ?_⟩)
      rw [← hid] at hloosens
      cases hloosens
  · have hchanged : LineBreakClass.id ≠ s.before := by
      intro hid
      rw [← hid] at hloosens
      cases hloosens
    -- a hyphen behind a Hebrew letter holds what follows it, so there was no break to lose
    have h21a : ¬s.lb21a := by
      intro h21a
      have hbound : s.bound := by simp [bound, h21a]
      have hskips := hseen.skips (by rintro hspace; rw [hspace] at hloosens; cases hloosens)
      refine not_breaks_of_held ?_ ?_ ?_ (Or.inr hbound) h <;>
      · simp only [loosens, hardBreakEndsTheLine, hskips, decide_eq_true_eq, List.mem_cons, List.not_mem_nil,
          or_false] at hloosens ⊢
        grind
    refine breaks_before hseen hloosens ha (fun hpo => ?_) (fun hhh hgl => ?_) h
    · exact hbinds (Or.inl ⟨hchanged, hpo, h21a⟩)
    · exact hbinds (Or.inr (Or.inl ⟨hhh, by simp, hgl, h21a⟩))

theorem not_letter_of_loosens {c : LineBreakClass} (h : loosens c) : ¬isLetterLike c := by
  cases c <;> simp_all [loosens, isLetterLike]

theorem not_letter_of_binds {s : Surroundings} {before after : LineBreakClass} (hb : Loosened s.before before)
    (h : s.binds before after) : ¬isLetterLike s.before := by
  rcases h with ⟨hbefore, -⟩ | ⟨hhh, -⟩ | ⟨hpr, -⟩
  · exact not_letter_of_loosens (hb.resolve_left hbefore).1
  · simp [hhh, isLetterLike]
  · have hsame : s.before = .pr := (hb.resolve_right fun hid => by simp [hpr] at hid).symm.trans hpr
    simp [hsame, isLetterLike]

/-- loosening takes the break of a position: it binds, or it makes letters, which `keep-all` holds together, where no
rule did -/
def tightened (s : Surroundings) (keepAll : Bool) (before after : LineBreakClass) : Prop :=
  s.binds before after ∨
    keepAll ∧ isLetterLike before ∧ isLetterLike after ∧ ¬(isLetterLike s.before ∧ isLetterLike s.after) ∧
      ¬s.lb13 ∧ ¬s.bound

theorem letters_of_loosened {c c' : LineBreakClass} (h : Loosened c c') (hletter : isLetterLike c') :
    isLetterLike c ∨ loosens c := by
  rcases h with rfl | ⟨hloosens, -⟩
  · exact Or.inl hletter
  · exact Or.inr hloosens

/-- loosening the classes on both sides keeps a break exactly where it does not tighten -/
theorem leaves_iff_not_tightened {s : Surroundings} {keepAll : Bool} {before after : LineBreakClass} (hseen : s.Seen)
    (hb : Loosened s.before before) (ha : Loosened s.after after) :
    (s.leaves keepAll → { s with before := before, after := after }.leaves keepAll) ↔
      ¬s.tightened keepAll before after := by
  constructor
  · rintro hkeeps (hbinds | ⟨hkeep, hbefore, hafter, hletters, h13, hbound⟩)
    · refine not_breaks_of_binds hseen hb ha hbinds (hkeeps ⟨breaks_of_binds hseen hb ha hbinds, ?_⟩).1
      exact fun hletters => not_letter_of_binds hb hbinds hletters.2.1
    · have hs : s.letters := ⟨letters_of_loosened hb hbefore, letters_of_loosened ha hafter⟩
      have hbreaks := (breaks_iff_of_letters hseen hs).2 ⟨h13, hbound⟩
      exact (hkeeps ⟨hbreaks, fun h => hletters h.2⟩).2 ⟨hkeep, hbefore, hafter⟩
  · rintro htightened ⟨hbreaks, hletters⟩
    have hbinds : ¬s.binds before after := fun h => htightened (Or.inl h)
    refine ⟨breaks_of_not_binds hseen hb ha hbinds hbreaks, fun ⟨hkeep, hbefore, hafter⟩ => htightened (Or.inr ?_)⟩
    have hs : s.letters := ⟨letters_of_loosened hb hbefore, letters_of_loosened ha hafter⟩
    have hnone := (breaks_iff_of_letters hseen hs).1 hbreaks
    exact ⟨hkeep, hbefore, hafter, fun h => hletters ⟨hkeep, h⟩, hnone⟩

end Surroundings

/-! ## Units at two levels -/

section

variable (tables : Tables)

theorem loosened_of_strict {unit : TextUnit} (hraw : unit.Raw tables) (wordBreak : WordBreak) (wrap : Bool) :
    Loosened (tailored tables ⟨wordBreak, .strict, wrap⟩ unit).class'
      (tailored tables ⟨wordBreak, .normal, wrap⟩ unit).class' := by
  rw [tailored, tailored]
  by_cases hattached : unit.attached
  · exact Or.inl (by simp [hattached])
  · rw [if_neg hattached, if_neg hattached]
    simp only [LineBreakStrictness.normalized, loosened]
    by_cases hnamed : unit.character ∈ ['\u301c', '\u30a0']
    · have hclass : unit.class' = .ns := by
        simp only [List.mem_cons, List.not_mem_nil, or_false] at hnamed
        refine class_of_raw tables hraw hattached ?_ (by simp)
        rcases hnamed with h | h <;> rw [h]
        · exact tables.waveDash
        · exact tables.doubleHyphen
      rw [if_pos hnamed, hclass]
      exact Or.inr ⟨by simp [brokenAll, loosens], rfl⟩
    · rw [if_neg hnamed]
      exact Or.inl rfl

theorem loosened_of_normal {unit : TextUnit} (hraw : unit.Raw tables) (wordBreak : WordBreak) (wrap : Bool) :
    Loosened (tailored tables ⟨wordBreak, .normal, wrap⟩ unit).class'
      (tailored tables ⟨wordBreak, .loose, wrap⟩ unit).class' := by
  rw [tailored, tailored]
  by_cases hattached : unit.attached
  · exact Or.inl (by simp [hattached])
  · rw [if_neg hattached, if_neg hattached]
    simp only [LineBreakStrictness.normalized, loosened]
    by_cases hnamed : unit.character ∈ ['\u301c', '\u30a0', '\u2010', '\u2013']
    · simp only [List.mem_cons, List.not_mem_nil, or_false] at hnamed
      rcases hnamed with h | h | h | h
      · have hclass := class_of_raw tables hraw hattached (h ▸ tables.waveDash) (by simp)
        exact Or.inl (by simp [h, hclass, brokenAll])
      · have hclass := class_of_raw tables hraw hattached (h ▸ tables.doubleHyphen) (by simp)
        exact Or.inl (by simp [h, hclass, brokenAll])
      · have hclass := class_of_raw tables hraw hattached (h ▸ tables.hyphen) (by simp)
        exact Or.inr ⟨by simp [h, hclass, brokenAll, loosens], by simp [h]⟩
      · have hclass := class_of_raw tables hraw hattached (h ▸ tables.enDash) (by simp)
        exact Or.inr ⟨by simp [h, hclass, brokenAll, loosens], by simp [h]⟩
    · simp only [List.mem_cons, List.not_mem_nil, or_false, not_or] at hnamed
      obtain ⟨h1, h2, h3, h4⟩ := hnamed
      simp only [List.mem_cons, List.not_mem_nil, or_false, h1, h2, h3, h4, or_self, if_false]
      generalize brokenAll wordBreak unit.class' = c
      cases c <;> simp [Loosened, loosens]

theorem blurred_of_loosened {c c' : LineBreakClass} (h : Loosened c c') : blurred c = blurred c' := by
  rcases h with rfl | ⟨hloosens, rfl⟩
  · rfl
  · cases c <;> simp_all [loosens, blurred, indifferent]

end

/-! ## Two levels -/

section

variable (tables : Tables)

/-- `g` leaves what `f` makes of each of the units as it is, or makes an ideograph of it -/
def LoosenedBy (raw : List TextUnit) (f g : TextUnit → TextUnit) : Prop :=
  ∀ unit ∈ raw, Loosened (f unit).class' (g unit).class' ∧ (g unit).character = (f unit).character ∧
    (g unit).attached = (f unit).attached

theorem blurred_of_loosenedBy {raw : List TextUnit} {f g : TextUnit → TextUnit} (h : LoosenedBy raw f g) :
    (raw.map f).map TextUnit.blurred = (raw.map g).map TextUnit.blurred := by
  simp only [List.map_map]
  refine List.map_congr_left fun unit hmem => ?_
  obtain ⟨hclass, hcharacter, hattached⟩ := h unit hmem
  simp only [Function.comp_apply, TextUnit.blurred, hcharacter, hattached, blurred_of_loosened hclass]

/-- the units beside a position at the looser level, beside those at the stricter one -/
theorem beside_loosened {raw : List TextUnit} {f g : TextUnit → TextUnit} (h : LoosenedBy raw f g) {position : ℕ}
    {before after : TextUnit} (hbeside : Beside (raw.map f) position before after) :
    ∃ before' after', Beside (raw.map g) position before' after' ∧ Loosened before.class' before'.class' ∧
      Loosened after.class' after'.class' ∧ before'.character = before.character ∧
      after'.character = after.character := by
  obtain ⟨hbefore, hafter, hattached⟩ := hbeside
  rw [previous_map, Option.map_eq_some_iff] at hbefore
  rw [List.getElem?_map, Option.map_eq_some_iff] at hafter
  obtain ⟨unit, hbefore, rfl⟩ := hbefore
  obtain ⟨unit', hafter, rfl⟩ := hafter
  have hmem : unit ∈ raw := by
    obtain ⟨front, hfront⟩ := take_of_previous hbefore
    exact List.mem_of_mem_take (hfront ▸ List.mem_append_right front (List.mem_singleton_self unit))
  obtain ⟨hclass, hcharacter, -⟩ := h unit hmem
  obtain ⟨hclass', hcharacter', hattached'⟩ := h unit' (List.mem_of_getElem? hafter)
  refine ⟨g unit, g unit', ⟨?_, ?_, ?_⟩, hclass, hclass', hcharacter, hcharacter'⟩
  · rw [previous_map, hbefore, Option.map_some]
  · rw [List.getElem?_map, hafter, Option.map_some]
  · rw [hattached']
    exact hattached

/-- loosening takes the break of a position between these units -/
def Tightened (keepAll : Bool) (units units' : List TextUnit) (position : ℕ) : Prop :=
  ∃ before after before' after', Beside units position before after ∧ Beside units' position before' after' ∧
    (surroundings tables units position before after).tightened keepAll before'.class' after'.class'

/-- a break at the stricter level is one at the looser level, where loosening does not tighten -/
theorem leaves_loosened_iff {raw : List TextUnit} {f g : TextUnit → TextUnit} (h : LoosenedBy raw f g) (keepAll : Bool)
    (position : ℕ) :
    (Leaves tables keepAll (raw.map f) position → Leaves tables keepAll (raw.map g) position) ↔
      ¬Tightened tables keepAll (raw.map f) (raw.map g) position := by
  by_cases hinside : ∃ before after, Beside (raw.map f) position before after
  · obtain ⟨before, after, hbeside⟩ := hinside
    obtain ⟨before', after', hbeside', hbefore, hafter, hcharacter, hcharacter'⟩ := beside_loosened h hbeside
    have hseen := seen_surroundings tables hbeside.1 hbeside.2.1
    have hrules := rules_of_blurred tables (blurred_of_loosenedBy h) position before' after'
    have hsame : surroundings tables (raw.map f) position before' after' =
        { surroundings tables (raw.map f) position before after with
          before := before'.class', after := after'.class' } := by
      simp only [surroundings, hcharacter, hcharacter']
    have hleaves : Leaves tables keepAll (raw.map f) position ↔
        (surroundings tables (raw.map f) position before after).leaves keepAll := by
      refine ⟨?_, fun hleft => ⟨before, after, hbeside, hleft⟩⟩
      rintro ⟨unit, unit', hunits, hleft⟩
      obtain ⟨rfl, rfl⟩ := hbeside.unique hunits
      exact hleft
    have hleaves' : Leaves tables keepAll (raw.map g) position ↔
        { surroundings tables (raw.map f) position before after with
          before := before'.class', after := after'.class' }.leaves keepAll := by
      rw [← hsame, Surroundings.leaves, ← Surroundings.rules_ne_prohibited_iff, hrules,
        Surroundings.rules_ne_prohibited_iff]
      refine ⟨?_, fun hleft => ⟨before', after', hbeside', hleft⟩⟩
      rintro ⟨unit, unit', hunits, hleft⟩
      obtain ⟨rfl, rfl⟩ := hbeside'.unique hunits
      exact hleft
    have htightened : Tightened tables keepAll (raw.map f) (raw.map g) position ↔
        (surroundings tables (raw.map f) position before after).tightened keepAll before'.class' after'.class' := by
      refine ⟨?_, fun htight => ⟨before, after, before', after', hbeside, hbeside', htight⟩⟩
      rintro ⟨unit, unit', unit'', unit''', hunits, hunits', htight⟩
      obtain ⟨rfl, rfl⟩ := hbeside.unique hunits
      obtain ⟨rfl, rfl⟩ := hbeside'.unique hunits'
      exact htight
    rw [hleaves, hleaves', htightened]
    exact Surroundings.leaves_iff_not_tightened hseen hbefore hafter
  · constructor
    · rintro - ⟨before, after, -, -, hbeside, -⟩
      exact hinside ⟨before, after, hbeside⟩
    · rintro - ⟨before, after, hbeside, -⟩
      exact absurd ⟨before, after, hbeside⟩ hinside

/-! ## Loosening a text -/

/-- each break at a level is one at the next looser level, and behind the start of the text one under `anywhere` -/
def Monotone (characters : List Char) (wordBreak : WordBreak) (wrap : Bool) : Prop :=
  ∀ position ≤ characters.length,
    (breakAt tables characters ⟨wordBreak, .strict, wrap⟩ position →
      breakAt tables characters ⟨wordBreak, .normal, wrap⟩ position) ∧
    (breakAt tables characters ⟨wordBreak, .normal, wrap⟩ position →
      breakAt tables characters ⟨wordBreak, .loose, wrap⟩ position) ∧
    (0 < position → breakAt tables characters ⟨wordBreak, .normal, wrap⟩ position →
      breakAt tables characters ⟨wordBreak, .anywhere, wrap⟩ position)

theorem loosenedBy_of_strict (characters : List Char) (wordBreak : WordBreak) (wrap : Bool) :
    LoosenedBy (resolveFrom tables none characters) (tailored tables ⟨wordBreak, .strict, wrap⟩)
      (tailored tables ⟨wordBreak, .normal, wrap⟩) := fun unit hmem =>
  ⟨loosened_of_strict tables (resolveFrom_raw tables none characters unit hmem) wordBreak wrap,
    by simp only [tailored_character], by simp only [tailored_attached]⟩

theorem loosenedBy_of_normal (characters : List Char) (wordBreak : WordBreak) (wrap : Bool) :
    LoosenedBy (resolveFrom tables none characters) (tailored tables ⟨wordBreak, .normal, wrap⟩)
      (tailored tables ⟨wordBreak, .loose, wrap⟩) := fun unit hmem =>
  ⟨loosened_of_normal tables (resolveFrom_raw tables none characters unit hmem) wordBreak wrap,
    by simp only [tailored_character], by simp only [tailored_attached]⟩

/-- at one position of a text that wraps, for two levels of which one makes ideographs of what the other has -/
theorem breakAt_loosened_iff (characters : List Char) (wordBreak : WordBreak) (wrap : Bool)
    {level level' : LineBreakStrictness} (hlevel : level ≠ .anywhere) (hlevel' : level' ≠ .anywhere)
    (h : LoosenedBy (resolveFrom tables none characters) (tailored tables ⟨wordBreak, level, wrap⟩)
      (tailored tables ⟨wordBreak, level', wrap⟩)) {position : ℕ} (hposition : position ≤ characters.length) :
    (breakAt tables characters ⟨wordBreak, level, wrap⟩ position →
        breakAt tables characters ⟨wordBreak, level', wrap⟩ position) ↔
      (wrap → position < characters.length → 0 < position → ¬Tightened tables (wordBreak = .keepAll)
        (unitsAt tables characters ⟨wordBreak, level, wrap⟩) (unitsAt tables characters ⟨wordBreak, level', wrap⟩)
        position) := by
  rw [breakAt_iff tables characters hlevel hposition, breakAt_iff tables characters hlevel' hposition]
  have hleaves := leaves_loosened_iff tables h (wordBreak = .keepAll) position
  simp only [← resolve_uniform_units] at hleaves
  change (wrap = true ∧ _ ∧ (_ ∨ Leaves tables _ (unitsAt tables characters ⟨wordBreak, level, wrap⟩) position) →
    wrap = true ∧ _ ∧ (_ ∨ Leaves tables _ (unitsAt tables characters ⟨wordBreak, level', wrap⟩) position)) ↔ _
  rw [unitsAt, unitsAt]
  constructor
  · intro hkeeps hwrap hinside hpos
    refine hleaves.1 fun hleft => ?_
    exact ((hkeeps ⟨hwrap, hpos, Or.inr hleft⟩).2.2).resolve_left hinside.ne
  · rintro htight ⟨hwrap, hpos, hleft⟩
    refine ⟨hwrap, hpos, ?_⟩
    rcases Nat.lt_or_eq_of_le hposition with hinside | hend
    · exact Or.inr (hleaves.2 (htight hwrap hinside hpos) (hleft.resolve_left hinside.ne))
    · exact Or.inl hend

theorem breakAt_anywhere (characters : List Char) (wordBreak : WordBreak) {position : ℕ} (hpos : 0 < position)
    (hposition : position ≤ characters.length) : breakAt tables characters ⟨wordBreak, .anywhere, true⟩ position := by
  have hcharacters : characters ≠ [] := by
    rintro rfl
    exact absurd hposition (Nat.not_le.2 hpos)
  rw [breakAt_iff_ruled tables hposition]
  refine ⟨hcharacters, rfl, ?_⟩
  rw [ruled, resolve_options, uniform_options]
  rcases Nat.lt_or_eq_of_le hposition with hinside | hend
  · rw [if_pos (by simp [anywhereAt, hinside]), if_neg hpos.ne']
    split_ifs <;> rfl
  · have hlength : (unitsAt tables characters ⟨wordBreak, .anywhere, true⟩).length = characters.length := by
      simp [unitsAt]
    have hunits : unitsAt tables characters ⟨wordBreak, .anywhere, true⟩ ≠ [] := by
      intro h
      rw [h] at hlength
      exact hcharacters (List.length_eq_zero_iff.1 hlength.symm)
    have hmandatory := decide_end tables hunits
    rw [hlength, ← hend, unitsAt] at hmandatory
    rw [if_neg (by simp [anywhereAt, hend]), hmandatory]
    simp [Break.isBreak, hend]

/-- **Loosening keeps breaks except where the ideographs it makes are held.** A text that wraps loses a break to a
looser level exactly at the positions that are `Tightened`: an ideograph made by loosening in front of a postfix, in
front of glue behind a hyphen, or behind a prefix; and under `keep-all` one made a letter beside a letter, where no rule
held the two before. -/
theorem monotone_iff (characters : List Char) (wordBreak : WordBreak) (wrap : Bool) :
    Monotone tables characters wordBreak wrap ↔ wrap = false ∨ ∀ position < characters.length, 0 < position →
      ¬Tightened tables (wordBreak = .keepAll) (unitsAt tables characters ⟨wordBreak, .strict, wrap⟩)
        (unitsAt tables characters ⟨wordBreak, .normal, wrap⟩) position ∧
      ¬Tightened tables (wordBreak = .keepAll) (unitsAt tables characters ⟨wordBreak, .normal, wrap⟩)
        (unitsAt tables characters ⟨wordBreak, .loose, wrap⟩) position := by
  have hstrict (position : ℕ) (h : position ≤ characters.length) := breakAt_loosened_iff tables characters wordBreak
    wrap (by simp) (by simp) (loosenedBy_of_strict tables characters wordBreak wrap) h
  have hnormal (position : ℕ) (h : position ≤ characters.length) := breakAt_loosened_iff tables characters wordBreak
    wrap (by simp) (by simp) (loosenedBy_of_normal tables characters wordBreak wrap) h
  constructor
  · intro hmonotone
    by_cases hwrap : wrap
    · refine Or.inr fun position hinside hpos => ?_
      obtain ⟨hs, hn, -⟩ := hmonotone position hinside.le
      exact ⟨(hstrict position hinside.le).1 hs hwrap hinside hpos,
        (hnormal position hinside.le).1 hn hwrap hinside hpos⟩
    · exact Or.inl (by simpa using hwrap)
  · intro hcondition position hposition
    have htight : wrap → position < characters.length → 0 < position → _ := fun hwrap hinside hpos =>
      (hcondition.resolve_left (by simp [hwrap])) position hinside hpos
    refine ⟨(hstrict position hposition).2 fun hwrap hinside hpos => (htight hwrap hinside hpos).1,
      (hnormal position hposition).2 fun hwrap hinside hpos => (htight hwrap hinside hpos).2, fun hpos hbreak => ?_⟩
    have hwrap : wrap = true := ((breakAt_iff tables characters (by simp) hposition).1 hbreak).1
    rw [hwrap]
    exact breakAt_anywhere tables characters wordBreak hpos hposition

end

/-- a wave dash in front of a percent sign loses its break from strict to normal -/
theorem not_monotone : ¬∀ (tables : Tables) (characters : List Char) (wordBreak : WordBreak) (wrap : Bool),
    Monotone tables characters wordBreak wrap := by
  intro h
  obtain ⟨hstrict, -, -⟩ := h sampleTables ['\u301c', '%'] .normal true 1 (by simp)
  obtain ⟨b, hbreak, hisBreak⟩ := hstrict ⟨.allowed, by decide, by decide⟩
  have hprohibited : (opportunities sampleTables ['\u301c', '%'] ⟨.normal, .normal, true⟩)[1]? = some .prohibited := by
    decide
  rw [hprohibited] at hbreak
  cases hbreak
  cases hisBreak

end Render.Layout.LineBreak
