/-
Serialization against the markup that is to be written.

- `Written.noLonger`: what the source writes is no longer than the markup, and where it is as long, the way down is faithful.
- `Faithful.settles`: on a faithful way down the source returns, and writes the markup.
- `serialization_escapes`: so it writes the markup exactly where every element on the way down is plain.
-/
import Render.Html.Serialization

namespace Render.Html

open Render.Core Render.Net

variable {d : Dom} {scripting : Bool} {n c : NodeId} {s t : Chars}

/-! ## Escaping -/

theorem textReference_eq_none {a : Char} : textReference a = none ↔ a ≠ '&' ∧ a ≠ '<' ∧ a ≠ '>' := by
  unfold textReference
  split <;> simp_all

theorem textReference_cases {a : Char} {r : Chars} (h : textReference a = some r) :
    r = ['&', 'a', 'm', 'p', ';'] ∨ r = ['&', 'l', 't', ';'] ∨ r = ['&', 'g', 't', ';'] := by
  unfold textReference at h
  split at h <;> simp_all

theorem attributeReference_cases {a : Char} {r : Chars} (h : attributeReference a = some r) :
    r = ['&', 'a', 'm', 'p', ';'] ∨ r = ['&', 'q', 'u', 'o', 't', ';'] := by
  unfold attributeReference at h
  split at h <;> simp_all

theorem textReference_length (a : Char) (r : Chars) (h : textReference a = some r) : 1 < r.length := by
  rcases textReference_cases h with rfl | rfl | rfl <;> decide

/-- an escaped text has no `<` and no `>`, and each `&` in it begins a reference -/
theorem escapeText_escaped (data : String) : '<' ∉ escapeText data ∧ '>' ∉ escapeText data ∧
    ∀ before after, escapeText data = before ++ '&' :: after →
      ['a', 'm', 'p', ';'] <+: after ∨ ['l', 't', ';'] <+: after ∨ ['g', 't', ';'] <+: after := by
  refine ⟨not_mem_escape (by decide) fun b r h => ?_, not_mem_escape (by decide) fun b r h => ?_, fun before after h => ?_⟩
  · rcases textReference_cases h with rfl | rfl | rfl <;> decide
  · rcases textReference_cases h with rfl | rfl | rfl <;> decide
  · have href : ∀ b r, textReference b = some r → ∃ r', r = '&' :: r' ∧ '&' ∉ r' := fun b r h => by
      rcases textReference_cases h with rfl | rfl | rfl <;> exact ⟨_, rfl, by decide⟩
    obtain ⟨b, r, hr, hafter⟩ := escape_marker (by decide) href h
    rcases textReference_cases hr with he | he | he
    · exact Or.inl ((List.cons.inj he).2 ▸ hafter)
    · exact Or.inr (Or.inl ((List.cons.inj he).2 ▸ hafter))
    · exact Or.inr (Or.inr ((List.cons.inj he).2 ▸ hafter))

/-- an escaped attribute value has no `"`, and each `&` in it begins a reference -/
theorem escapeAttribute_escaped (value : String) : '"' ∉ escapeAttribute value ∧
    ∀ before after, escapeAttribute value = before ++ '&' :: after →
      ['a', 'm', 'p', ';'] <+: after ∨ ['q', 'u', 'o', 't', ';'] <+: after := by
  refine ⟨not_mem_escape (by decide) fun b r h => ?_, fun before after h => ?_⟩
  · rcases attributeReference_cases h with rfl | rfl <;> decide
  · have href : ∀ b r, attributeReference b = some r → ∃ r', r = '&' :: r' ∧ '&' ∉ r' := fun b r h => by
      rcases attributeReference_cases h with rfl | rfl <;> exact ⟨_, rfl, by decide⟩
    obtain ⟨b, r, hr, hafter⟩ := escape_marker (by decide) href h
    rcases attributeReference_cases hr with he | he
    · exact Or.inl ((List.cons.inj he).2 ▸ hafter)
    · exact Or.inr ((List.cons.inj he).2 ▸ hafter)

theorem clean_iff {data : String} : Clean data ↔ ∀ a ∈ data.toList, textReference a = none :=
  forall₂_congr fun _ _ => textReference_eq_none.symm

/-- a text as it is, where it is to be escaped -/
theorem noLonger_escapeText (data : String) : NoLonger data.toList (escapeText data) (Clean data) where
  le := length_le_escape textReference_length _
  eq he := by
    have hclean := (length_escape textReference_length).1 he.symm
    exact ⟨(escape_of_none hclean).symm, clean_iff.2 hclean⟩

/-! ## What nodes of one kind are written as -/

theorem literalText_eq_some {rawText : Bool} {r : Chars} : literalText d rawText c = some r ↔
    rawText = true ∧ ∃ data, d.kindOf c = some (.text data) ∧ r = data.toList := by
  unfold literalText
  cases rawText with
  | false => simp
  | true =>
    cases hk : d.kindOf c with
    | none => simp
    | some kind => cases kind <;> simp [eq_comm]

theorem written_text {data : String} (hk : d.kindOf c = some (.text data)) : Written d scripting c t ↔ t = escapeText data := by
  constructor
  · intro h
    cases h with
    | absent hk' => rw [hk] at hk'; cases hk'
    | leaf hk' => rw [hk] at hk'; cases hk'; rfl
    | holder hk' hh => rw [hk] at hk'; cases hk'; exact hh.elim
    | void hk' => rw [hk] at hk'; cases hk'
    | element hk' => rw [hk] at hk'; cases hk'
  · rintro rfl
    exact Written.leaf hk trivial

theorem faithful_of_inside_nil (hplain : Plain d scripting n) (h : inside d n = []) : Faithful d scripting n :=
  Faithful.intro hplain fun c hc => by rw [h] at hc; cases hc

theorem plain_of_not_element (h : ∀ element, d.kindOf n ≠ some (.element element)) : Plain d scripting n :=
  fun element hk => absurd hk (h element)

theorem faithful_text {data : String} (hk : d.kindOf c = some (.text data)) : Faithful d scripting c :=
  faithful_of_inside_nil (plain_of_not_element fun element he => by rw [hk] at he; cases he) (by simp only [inside, hk])

theorem inside_holder {kind : NodeKind} (hk : d.kindOf n = some kind) (hh : IsHolder kind) : inside d n = d.childrenOf n := by
  unfold inside
  rw [hk]
  cases kind <;> first | rfl | exact hh.elim

theorem inside_leaf {kind : NodeKind} (hk : d.kindOf n = some kind) (hl : IsLeaf kind) : inside d n = [] := by
  unfold inside
  rw [hk]
  cases kind <;> first | rfl | exact hl.elim

theorem inside_element {element : ElementData} (hk : d.kindOf n = some (.element element)) (hv : ¬ IsVoid element) :
    inside d n = d.contentsOf n ++ d.childrenOf n := by
  unfold inside
  rw [hk]
  exact if_neg hv

/-- an empty markup is that of a blank node -/
theorem Written.blank (h : Written d scripting n s) (hs : s = []) : Blank d n := by
  induction h with
  | absent hk => exact Blank.absent hk
  | @leaf n kind hk hl =>
    cases kind with
    | text data =>
      have hdata : data = "" := by
        have hle := (noLonger_escapeText data).le
        rw [show escapeText data = [] from hs, List.length_nil, Nat.le_zero, List.length_eq_zero_iff] at hle
        exact String.toList_eq_nil_iff.1 hle
      exact Blank.text (hdata ▸ hk)
    | comment | documentType | processingInstruction => exact absurd (List.append_eq_nil_iff.1 hs).2 (by decide)
    | _ => exact hl.elim
  | holder hk hh _ ih =>
    exact Blank.holder hk hh fun c hc => ih c hc (List.flatMap_eq_nil_iff.1 hs c hc)
  | void => simp [startTag] at hs
  | element => simp [startTag] at hs

/-- the markup of a blank node is empty -/
theorem Blank.written (hb : Blank d n) : Written d scripting n s → s = [] := by
  induction hb generalizing s with
  | absent hk =>
    intro h
    cases h with
    | absent => rfl
    | leaf hk' | holder hk' | void hk' | element hk' => rw [hk] at hk'; cases hk'
  | text hk =>
    intro h
    rw [(written_text hk).1 h]
    simp [escapeText, escape]
  | @holder n kind hk hh _ ih =>
    intro h
    cases h with
    | absent => rfl
    | leaf hk' hl => rw [hk] at hk'; cases hk'; cases kind <;> first | exact hh.elim | exact hl.elim
    | holder _ _ hown => exact List.flatMap_eq_nil_iff.2 fun c hc => ih c hc (hown c hc)
    | void hk' => rw [hk] at hk'; cases hk'; exact hh.elim
    | element hk' => rw [hk] at hk'; cases hk'; exact hh.elim

theorem Blank.faithful (hb : Blank d n) : Faithful d scripting n := by
  induction hb with
  | absent hk =>
    exact faithful_of_inside_nil (plain_of_not_element fun element he => by rw [hk] at he; cases he) (by simp only [inside, hk])
  | text hk => exact faithful_text hk
  | @holder n kind hk hh _ ih =>
    refine Faithful.intro (plain_of_not_element fun element he => ?_) fun c hc => ih c (inside_holder hk hh ▸ hc)
    rw [hk] at he
    cases he
    exact hh.elim

/-! ## What the source writes is no longer -/

/-- one child, written literally by the source when `raw`, and to be written so when `htmlRaw` -/
theorem serializeChild_noLonger {serialize : NodeId → Option Chars} {raw htmlRaw : Bool} (himp : htmlRaw = true → raw = true)
    (hwritten : literalText d htmlRaw c = none → Written d scripting c t)
    (hliteral : ∀ data, literalText d htmlRaw c = some data → t = data)
    (ih : literalText d htmlRaw c = none → ∀ s, serialize c = some s → NoLonger s t (Faithful d scripting c))
    (hs : serializeChild d serialize raw c = some s) :
    NoLonger s t (Faithful d scripting c ∧ (raw = true ∧ htmlRaw = false → CleanText d c)) := by
  unfold serializeChild at hs
  cases hl : literalText d raw c with
  | none =>
    have hnone : literalText d htmlRaw c = none := by
      cases h : literalText d htmlRaw c with
      | none => rfl
      | some r =>
        obtain ⟨hr, data, hk, rfl⟩ := literalText_eq_some.1 h
        rw [literalText_eq_some.2 ⟨himp hr, data, hk, rfl⟩] at hl
        cases hl
    rw [hl] at hs
    refine (ih hnone s hs).imp fun hf => ⟨hf, fun ⟨hraw, _⟩ data hk => ?_⟩
    rw [literalText_eq_some.2 ⟨hraw, data, hk, rfl⟩] at hl
    cases hl
  | some r =>
    rw [hl] at hs
    obtain rfl := Option.some.inj hs
    obtain ⟨hraw, data, hk, rfl⟩ := literalText_eq_some.1 hl
    cases hhtml : htmlRaw with
    | true =>
      obtain rfl := hliteral _ (literalText_eq_some.2 ⟨hhtml, data, hk, rfl⟩)
      exact NoLonger.same _ ⟨faithful_text hk, fun h => absurd h.2 (by simp)⟩
    | false =>
      have hnone : literalText d htmlRaw c = none := by rw [hhtml]; rfl
      obtain rfl := (written_text hk).1 (hwritten hnone)
      refine (noLonger_escapeText data).imp fun hclean => ⟨faithful_text hk, fun _ data' hk' => ?_⟩
      rw [hk] at hk'
      cases hk'
      exact hclean

/-- what the source writes of what a node holds: the contents alone, where there are some -/
def writeInside (d : Dom) (serialize : NodeId → Option Chars) (rawContents rawOwn : Bool) (n : NodeId) : Option Chars :=
  match d.templateContents n with
  | some contents => serializeChildren d serialize rawContents (d.childrenOf contents)
  | none => serializeChildren d serialize rawOwn (d.childrenOf n)

theorem serializeBody_eq (serialize : NodeId → Option Chars) (element : ElementData) :
    serializeBody d serialize scripting n element =
      writeInside d serialize false (isRawTextElement element.localName scripting) n := rfl

theorem fragment_eq (levels : ℕ) : serializeHtmlFragmentWithScripting d levels n scripting =
    writeInside d (serializeNode d scripting levels) (rawTextParent d n scripting) (rawTextParent d n scripting) n := by
  unfold serializeHtmlFragmentWithScripting writeInside
  cases d.templateContents n <;> rfl

theorem contentsOf_some {f : NodeId} (h : d.templateContents n = some f) : d.contentsOf n = d.childrenOf f := by
  unfold Dom.contentsOf
  rw [h]

theorem contentsOf_none (h : d.templateContents n = none) : d.contentsOf n = [] := by
  unfold Dom.contentsOf
  rw [h]

/-- what a node holds -/
theorem writeInside_noLonger {serialize : NodeId → Option Chars} {rawContents rawOwn htmlRaw : Bool}
    (himp : htmlRaw = true → rawOwn = true) {inner own : NodeId → Chars}
    (hinner : ∀ c ∈ d.contentsOf n, Written d scripting c (inner c))
    (hown : ∀ c ∈ d.childrenOf n, literalText d htmlRaw c = none → Written d scripting c (own c))
    (hliteral : ∀ c ∈ d.childrenOf n, ∀ data, literalText d htmlRaw c = some data → own c = data)
    (ihi : ∀ c ∈ d.contentsOf n, ∀ s, serialize c = some s → NoLonger s (inner c) (Faithful d scripting c))
    (iho : ∀ c ∈ d.childrenOf n, literalText d htmlRaw c = none →
      ∀ s, serialize c = some s → NoLonger s (own c) (Faithful d scripting c))
    (hs : writeInside d serialize rawContents rawOwn n = some s) :
    NoLonger s (insideMarkup d n inner own) (PlainInside d n (rawContents = true) (rawOwn = true ∧ htmlRaw = false) ∧
      ∀ c ∈ d.contentsOf n ++ d.childrenOf n, Faithful d scripting c) := by
  unfold writeInside at hs
  unfold insideMarkup
  cases hf : d.templateContents n with
  | none =>
    rw [hf] at hs
    have hchild : ∀ c ∈ d.childrenOf n, ∀ s, serializeChild d serialize rawOwn c = some s →
        NoLonger s (own c) (Faithful d scripting c ∧ (rawOwn = true ∧ htmlRaw = false → CleanText d c)) :=
      fun c hc s h => serializeChild_noLonger himp (hown c hc) (hliteral c hc) (iho c hc) h
    have hall := NoLonger.gather hchild hs
    rw [contentsOf_none hf, List.flatMap_nil, List.nil_append, List.nil_append]
    refine hall.imp fun h => ⟨⟨fun _ c hc => ?_, fun _ hraw c hc => (h c hc).2 hraw, fun hne => absurd hf hne⟩, fun c hc =>
      (h c hc).1⟩
    rw [contentsOf_none hf] at hc
    cases hc
  | some f =>
    rw [hf] at hs
    rw [contentsOf_some hf] at hinner ihi ⊢
    have hchild : ∀ c ∈ d.childrenOf f, ∀ s, serializeChild d serialize rawContents c = some s →
        NoLonger s (inner c) (Faithful d scripting c ∧ (rawContents = true ∧ false = false → CleanText d c)) :=
      fun c hc s h => serializeChild_noLonger (fun h => by cases h) (fun _ => hinner c hc) (fun data h => by cases h)
        (fun _ => ihi c hc) h
    have hall := NoLonger.gather hchild hs
    -- the source writes nothing for the children
    have hblank : NoLonger [] ((d.childrenOf n).flatMap own) (∀ c ∈ d.childrenOf n, Blank d c) := by
      refine ⟨Nat.zero_le _, fun he => ?_⟩
      have hnil := (List.length_eq_zero_iff.1 he.symm)
      refine ⟨hnil.symm, fun c hc => ?_⟩
      have hc0 := List.flatMap_eq_nil_iff.1 hnil c hc
      cases hl : literalText d htmlRaw c with
      | none => exact (hown c hc hl).blank hc0
      | some r =>
        have hr := hliteral c hc r hl
        obtain ⟨-, data, hk, rfl⟩ := literalText_eq_some.1 hl
        exact Blank.text ((String.toList_eq_nil_iff.1 (hr.symm.trans hc0)) ▸ hk)
    have hboth := hall.append hblank
    rw [List.append_nil] at hboth
    refine hboth.imp fun h => ⟨⟨fun hraw c hc => ?_, fun hnone => absurd (hf.symm.trans hnone) (by simp), fun _ => h.2⟩,
      fun c hc => ?_⟩
    · rw [contentsOf_some hf] at hc
      exact (h.1 c hc).2 ⟨hraw, rfl⟩
    · rcases List.mem_append.1 hc with hc | hc
      · exact (h.1 c hc).1
      · exact (h.2 c hc).faithful

/-- one element: a name of a void element leaves the end tag out -/
theorem endTag_length (element : ElementData) : 0 < (endTag element).length := by
  unfold endTag
  simp

/-- **What the source writes is no longer than the markup**, and where it is as long, the way down is faithful. -/
theorem Written.noLonger (h : Written d scripting n t) :
    ∀ k s, serializeNode d scripting k n = some s → NoLonger s t (Faithful d scripting n) := by
  induction h with
  | @absent n hk =>
    rintro (_ | k) s hs
    · cases hs
    · simp only [serializeNode, hk, Option.some.injEq] at hs
      exact hs ▸ NoLonger.same _ (Blank.absent hk).faithful
  | @leaf n kind hk hl =>
    rintro (_ | k) s hs
    · cases hs
    · have he : s = leafMarkup kind := by
        cases kind <;> first | exact hl.elim | (simp only [serializeNode, hk, Option.some.injEq] at hs; exact hs.symm)
      refine he ▸ NoLonger.same _ (faithful_of_inside_nil (plain_of_not_element fun element he' => ?_) (inside_leaf hk hl))
      rw [hk] at he'
      cases he'
      exact hl
  | @holder n kind own hk hh _ ih =>
    rintro (_ | k) s hs
    · cases hs
    · have hs' : serializeChildren d (serializeNode d scripting k) false (d.childrenOf n) = some s := by
        cases kind <;> first | exact hh.elim | simpa only [serializeNode, hk] using hs
      refine (NoLonger.gather (fun c hc s h => ih c hc k s h) hs').imp fun hall => ?_
      refine Faithful.intro (plain_of_not_element fun element he => ?_) fun c hc => hall c (inside_holder hk hh ▸ hc)
      rw [hk] at he
      cases he
      exact hh
  | @void n element hk hv =>
    rintro (_ | k) s hs
    · cases hs
    · simp only [serializeNode, hk] at hs
      rw [if_pos (List.contains_iff_mem.2 hv.2), Option.some.injEq] at hs
      refine hs ▸ NoLonger.same _ (faithful_of_inside_nil (fun element' hk' hv' => ?_) ?_)
      · rw [hk] at hk'
        cases hk'
        exact absurd hv hv'
      · simp only [inside, hk, if_pos hv]
  | @element n element inner own hk hv hinner hown hliteral ihi iho =>
    rintro (_ | k) s hs
    · cases hs
    · simp only [serializeNode, hk] at hs
      by_cases hname : voidElements.contains element.localName = true
      · -- an element of another namespace, taken for a void one
        rw [if_pos hname, Option.some.injEq] at hs
        refine hs ▸ NoLonger.of_lt ?_
        have := endTag_length element
        simp only [List.length_append]
        omega
      · rw [if_neg hname] at hs
        obtain ⟨body, hbody, rfl⟩ : ∃ body, serializeBody d (serializeNode d scripting k) scripting n element = some body ∧
            startTag element ++ body ++ endTag element = s := by
          simpa [Option.bind_eq_some_iff] using hs
        rw [serializeBody_eq] at hbody
        have himp : decide (IsRawText scripting element) = true → isRawTextElement element.localName scripting = true :=
          fun h => (of_decide_eq_true h).2
        have hinside := writeInside_noLonger himp hinner hown hliteral (fun c hc => ihi c hc k)
          (fun c hc hnone => iho c hc hnone k) hbody
        refine (((NoLonger.same _ trivial).append hinside).append (NoLonger.same _ trivial)).imp ?_
        rintro ⟨⟨-, hplain, hall⟩, -⟩
        refine Faithful.intro (fun element' hk' _ => ?_) fun c hc => hall c (inside_element hk hv ▸ hc)
        obtain rfl := NodeKind.element.inj (Option.some.inj (hk.symm.trans hk'))
        refine ⟨fun hmem => hname (List.contains_iff_mem.2 hmem), ⟨fun h => h.elim, fun hnone hforeign => ?_, hplain.template⟩⟩
        exact hplain.children hnone ⟨hforeign.2, decide_eq_false fun h => hforeign.1 h.1⟩

/-! ## On a faithful way down the source writes the markup -/

theorem serializeChild_settles {serialize : ℕ → NodeId → Option Chars} {raw htmlRaw : Bool} {text : NodeId → Chars}
    (himp : htmlRaw = true → raw = true) (hclean : raw = true ∧ htmlRaw = false → CleanText d c)
    (hwritten : Written d scripting c (text c)) (hsettles : Settles (fun k => serialize k c) (text c)) :
    Settles (fun k => serializeChild d (serialize k) raw c) ((literalText d htmlRaw c).getD (text c)) := by
  unfold serializeChild
  cases hl : literalText d raw c with
  | none =>
    have hnone : literalText d htmlRaw c = none := by
      cases h : literalText d htmlRaw c with
      | none => rfl
      | some r =>
        obtain ⟨hr, data, hk, rfl⟩ := literalText_eq_some.1 h
        rw [literalText_eq_some.2 ⟨himp hr, data, hk, rfl⟩] at hl
        cases hl
    rw [hnone]
    exact hsettles
  | some r =>
    obtain ⟨hraw, data, hk, rfl⟩ := literalText_eq_some.1 hl
    cases hhtml : htmlRaw with
    | true =>
      rw [literalText_eq_some.2 ⟨rfl, data, hk, rfl⟩]
      exact Settles.const _
    | false =>
      have hnone : literalText d false c = none := rfl
      have hsame : text c = data.toList := by
        rw [(written_text hk).1 hwritten]
        exact escape_of_none (clean_iff.1 (hclean ⟨hraw, hhtml⟩ data hk))
      rw [hnone, Option.getD_none, hsame]
      exact Settles.const _

theorem writeInside_settles {serialize : ℕ → NodeId → Option Chars} {rawContents rawOwn htmlRaw : Bool}
    (himp : htmlRaw = true → rawOwn = true) {text : NodeId → Chars}
    (hplain : PlainInside d n (rawContents = true) (rawOwn = true ∧ htmlRaw = false))
    (hwritten : ∀ c ∈ d.contentsOf n ++ d.childrenOf n, Written d scripting c (text c))
    (hsettles : ∀ c ∈ d.contentsOf n ++ d.childrenOf n, Settles (fun k => serialize k c) (text c)) :
    Settles (fun k => writeInside d (serialize k) rawContents rawOwn n)
      (insideMarkup d n text fun c => (literalText d htmlRaw c).getD (text c)) := by
  unfold writeInside insideMarkup
  cases hf : d.templateContents n with
  | none =>
    rw [contentsOf_none hf] at hwritten hsettles ⊢
    rw [List.flatMap_nil, List.nil_append]
    exact Settles.gather fun c hc => serializeChild_settles himp (fun h => hplain.children hf h c hc)
      (hwritten c (by simpa using hc)) (hsettles c (by simpa using hc))
  | some f =>
    have hnil : ((d.childrenOf n).flatMap fun c => (literalText d htmlRaw c).getD (text c)) = [] := by
      refine List.flatMap_eq_nil_iff.2 fun c hc => ?_
      have hb := hplain.template (by rw [hf]; simp) c hc
      cases hl : literalText d htmlRaw c with
      | none => exact hb.written (hwritten c (List.mem_append_right _ hc))
      | some r =>
        obtain ⟨-, data, hk, rfl⟩ := literalText_eq_some.1 hl
        cases hb with
        | absent hk' => rw [hk] at hk'; cases hk'
        | text hk' => rw [hk] at hk'; cases hk'; rfl
        | holder hk' hh => rw [hk] at hk'; cases hk'; exact hh.elim
    rw [hnil, List.append_nil]
    rw [contentsOf_some hf] at hwritten hsettles ⊢
    have hclean : rawContents = true → ∀ c ∈ d.childrenOf f, CleanText d c := fun h c hc =>
      hplain.contents h c (contentsOf_some hf ▸ hc)
    have hchild : ∀ c ∈ d.childrenOf f,
        Settles (fun k => serializeChild d (serialize k) rawContents c) ((literalText d false c).getD (text c)) :=
      fun c hc => serializeChild_settles (fun h => by cases h) (fun h => hclean h.1 c hc)
        (hwritten c (List.mem_append_left _ hc)) (hsettles c (List.mem_append_left _ hc))
    exact Settles.gather hchild

/-- the markup that `writeInside_settles` finds -/
theorem written_literal {htmlRaw : Bool} {text : NodeId → Chars}
    (hwritten : ∀ c ∈ d.contentsOf n ++ d.childrenOf n, Written d scripting c (text c)) :
    (∀ c ∈ d.contentsOf n, Written d scripting c (text c)) ∧
    (∀ c ∈ d.childrenOf n, literalText d htmlRaw c = none → Written d scripting c ((literalText d htmlRaw c).getD (text c))) ∧
    ∀ c ∈ d.childrenOf n, ∀ data, literalText d htmlRaw c = some data → (literalText d htmlRaw c).getD (text c) = data := by
  refine ⟨fun c hc => hwritten c (List.mem_append_left _ hc), fun c hc hnone => ?_, fun c _ data hdata => ?_⟩
  · rw [hnone]
    exact hwritten c (List.mem_append_right _ hc)
  · rw [hdata]
    rfl

/-- **On a faithful way down the source returns**, and writes the markup. -/
theorem Faithful.settles (h : Faithful d scripting n) :
    ∃ t, Written d scripting n t ∧ Settles (fun k => serializeNode d scripting k n) t := by
  induction h with
  | @intro n hplain _ ih =>
    have hall : ∀ c, ∃ t, c ∈ inside d n → Written d scripting c t ∧ Settles (fun k => serializeNode d scripting k c) t := by
      intro c
      by_cases hc : c ∈ inside d n
      · obtain ⟨t, ht⟩ := ih c hc
        exact ⟨t, fun _ => ht⟩
      · exact ⟨[], fun hc' => absurd hc' hc⟩
    choose text htext using hall
    cases hk : d.kindOf n with
    | none => exact ⟨[], Written.absent hk, (Settles.const _).succ rfl fun k => by simp only [serializeNode, hk]⟩
    | some kind =>
      have hleaf : IsLeaf kind → ∃ t, Written d scripting n t ∧ Settles (fun k => serializeNode d scripting k n) t := by
        intro hl
        refine ⟨_, Written.leaf hk hl, (Settles.const _).succ rfl fun k => ?_⟩
        cases kind <;> first | exact hl.elim | (simp only [serializeNode, hk]; rfl)
      have hholder : IsHolder kind → ∃ t, Written d scripting n t ∧ Settles (fun k => serializeNode d scripting k n) t := by
        intro hh
        rw [inside_holder hk hh] at htext
        refine ⟨_, Written.holder hk hh fun c hc => (htext c hc).1,
          (Settles.gather fun c hc => (htext c hc).2).succ rfl fun k => ?_⟩
        cases kind <;> first | exact hh.elim | (simp only [serializeNode, hk]; rfl)
      cases kind with
      | element element =>
        by_cases hv : IsVoid element
        · refine ⟨_, Written.void hk hv, (Settles.const _).succ rfl fun k => ?_⟩
          simp only [serializeNode, hk]
          exact if_pos (List.contains_iff_mem.2 hv.2)
        · rw [inside_element hk hv] at htext
          obtain ⟨hname, hinside⟩ := hplain element hk hv
          have himp : decide (IsRawText scripting element) = true → isRawTextElement element.localName scripting = true :=
            fun h => (of_decide_eq_true h).2
          have hplain' : PlainInside d n (false = true)
              (isRawTextElement element.localName scripting = true ∧ decide (IsRawText scripting element) = false) :=
            ⟨fun h => (Bool.false_ne_true h).elim, fun hnone hraw => hinside.children hnone
              ⟨fun hns => of_decide_eq_false hraw.2 ⟨hns, hraw.1⟩, hraw.1⟩, hinside.template⟩
          have hwritten := fun c hc => (htext c hc).1
          obtain ⟨h1, h2, h3⟩ := @written_literal d scripting n (decide (IsRawText scripting element)) _ hwritten
          refine ⟨_, Written.element hk hv h1 h2 h3, ((writeInside_settles himp hplain' hwritten fun c hc =>
            (htext c hc).2).map fun body => startTag element ++ body ++ endTag element).succ rfl fun k => ?_⟩
          simp only [serializeNode, hk]
          rw [if_neg fun h => hname (List.contains_iff_mem.1 h), serializeBody_eq]
          cases writeInside d (serializeNode d scripting k) false (isRawTextElement element.localName scripting) n <;> rfl
      | document | documentFragment | shadowRoot => exact hholder trivial
      | documentType | text | comment | processingInstruction => exact hleaf trivial

/-! ## Nodes and fragments -/

/-- `serialize_html_node_with_scripting` returns, and writes the markup of the node -/
def WritesNode (d : Dom) (n : NodeId) (scripting : Bool) : Prop :=
  (∃ k s, serializeHtmlNodeWithScripting d k n scripting = some s) ∧
    ∀ k s, serializeHtmlNodeWithScripting d k n scripting = some s → Written d scripting n s

/-- `serialize_html_fragment_with_scripting` returns, and writes the markup of what the node holds -/
def WritesFragment (d : Dom) (n : NodeId) (scripting : Bool) : Prop :=
  (∃ k s, serializeHtmlFragmentWithScripting d k n scripting = some s) ∧
    ∀ k s, serializeHtmlFragmentWithScripting d k n scripting = some s → WrittenFragment d scripting n s

theorem writesNode_iff : WritesNode d n scripting ↔ Faithful d scripting n := by
  constructor
  · rintro ⟨⟨k, s, hs⟩, hall⟩
    exact (((hall k s hs).noLonger k s hs).eq rfl).2
  · intro h
    obtain ⟨t, ht, hsettles⟩ := h.settles
    obtain ⟨k, hk⟩ := hsettles.eventually
    exact ⟨⟨k, t, hk k le_rfl⟩, fun k s hs => hsettles.only k s hs ▸ ht⟩

theorem rawTextParent_of_html (h : htmlRawTextParent d n scripting = true) : rawTextParent d n scripting = true := by
  unfold htmlRawTextParent at h
  unfold rawTextParent
  cases he : d.elementOf n with
  | none => rw [he] at h; cases h
  | some element =>
    rw [he] at h
    exact (of_decide_eq_true h).2

theorem writesFragment_iff : WritesFragment d n scripting ↔
    PlainFragment d scripting n ∧ ∀ c ∈ d.contentsOf n ++ d.childrenOf n, Faithful d scripting c := by
  unfold WritesFragment
  simp only [fragment_eq]
  constructor
  · rintro ⟨⟨k, s, hs⟩, hall⟩
    obtain ⟨inner, own, rfl, hinner, hown, hliteral⟩ := hall k s hs
    exact ((writeInside_noLonger rawTextParent_of_html hinner hown hliteral (fun c hc => (hinner c hc).noLonger k)
      (fun c hc hnone => (hown c hc hnone).noLonger k) hs).eq rfl).2
  · rintro ⟨hplain, hall⟩
    have htext : ∀ c, ∃ t, c ∈ d.contentsOf n ++ d.childrenOf n →
        Written d scripting c t ∧ Settles (fun k => serializeNode d scripting k c) t := by
      intro c
      by_cases hc : c ∈ d.contentsOf n ++ d.childrenOf n
      · obtain ⟨t, ht⟩ := (hall c hc).settles
        exact ⟨t, fun _ => ht⟩
      · exact ⟨[], fun hc' => absurd hc' hc⟩
    choose text htext using htext
    have hwritten := fun c hc => (htext c hc).1
    have hsettles := writeInside_settles rawTextParent_of_html hplain hwritten fun c hc => (htext c hc).2
    obtain ⟨k, hk⟩ := hsettles.eventually
    refine ⟨⟨k, _, hk k le_rfl⟩, fun k s hs => ?_⟩
    rw [hsettles.only k s hs]
    exact ⟨_, _, rfl, written_literal hwritten⟩

/-- **Serialization escapes character data where names and namespaces agree.** An escaped text has no `<` and no `>`, an
escaped attribute value no `"`, and an `&` in them begins a reference. The source returns and writes the markup of a node
exactly when the way down from it ends and every element on it is plain: outside the HTML namespace none has the name of
a void element, none with the name of a raw text element has a text child with something to escape, and no template has
children beside its contents. For a fragment the same holds of what the node holds. -/
theorem serialization_escapes (d : Dom) (n : NodeId) (scripting : Bool) :
    (∀ data, '<' ∉ escapeText data ∧ '>' ∉ escapeText data ∧ ∀ before after, escapeText data = before ++ '&' :: after →
      ['a', 'm', 'p', ';'] <+: after ∨ ['l', 't', ';'] <+: after ∨ ['g', 't', ';'] <+: after) ∧
    (∀ value, '"' ∉ escapeAttribute value ∧ ∀ before after, escapeAttribute value = before ++ '&' :: after →
      ['a', 'm', 'p', ';'] <+: after ∨ ['q', 'u', 'o', 't', ';'] <+: after) ∧
    (WritesNode d n scripting ↔ WayEnds d n ∧ ∀ m, OnWay d n m → Plain d scripting m) ∧
    (WritesFragment d n scripting ↔ PlainFragment d scripting n ∧
      ∀ c ∈ d.contentsOf n ++ d.childrenOf n, WayEnds d c ∧ ∀ m, OnWay d c m → Plain d scripting m) := by
  refine ⟨escapeText_escaped, escapeAttribute_escaped, ?_, ?_⟩
  · rw [writesNode_iff, faithful_iff]
  · rw [writesFragment_iff]
    exact and_congr_right fun _ => forall₂_congr fun _ _ => faithful_iff

/-- the text `<img>` in an SVG `style` element -/
def foreignStyleOps : List Op := [.createElementNs .svg "style", .createText "<img>", .appendChild 1 2]

/-- **The text of an SVG `style` element comes out as markup**, of the element and of its fragment. -/
theorem foreign_style_markup :
    (runAll foreignStyleOps Dom.new).map (fun d => (serializeHtmlNode d 2 1, serializeHtmlFragment d 1 1)) =
      some (some "<style><img></style>".toList, some "<img>".toList) ∧
    (¬ ∀ d, Reachable d → ∀ n scripting, WritesNode d n scripting) ∧
    ¬ ∀ d, Reachable d → ∀ n scripting, WritesFragment d n scripting := by
  obtain ⟨d, hd⟩ : ∃ d, runAll foreignStyleOps Dom.new = some d := Option.isSome_iff_exists.1 (by decide)
  have hreach : Reachable d := Reach.new.runAll hd
  have hread : (runAll foreignStyleOps Dom.new).map (fun d => (d.kindOf 1, d.kindOf 2, d.childrenOf 1)) =
      some (some (.element { nameSpace := .svg, namePrefix := none, localName := "style" }), some (.text "<img>"), [2]) := by
    decide
  rw [hd, Option.map_some, Option.some.injEq, Prod.mk.injEq, Prod.mk.injEq] at hread
  obtain ⟨hstyle, htext, hchildren⟩ := hread
  have hnone : d.templateContents 1 = none := by
    unfold Dom.templateContents Dom.elementOf
    rw [hstyle]
    rfl
  have hdirty : ¬ ∀ c ∈ d.childrenOf 1, CleanText d c := fun h => by
    have hclean := h 2 (by rw [hchildren]; exact List.mem_singleton_self 2) _ htext
    exact (hclean '<' (by decide)).2.1 rfl
  refine ⟨by decide, fun hall => ?_, fun hall => ?_⟩
  · obtain ⟨hplain, -⟩ := writesNode_iff.1 (hall d hreach 1 true)
    exact hdirty ((hplain _ hstyle (by decide)).2.children hnone ⟨by decide, by decide⟩)
  · obtain ⟨hplain, -⟩ := writesFragment_iff.1 (hall d hreach 1 true)
    refine hdirty (hplain.children hnone ⟨?_, ?_⟩)
    · simp only [rawTextParent, Dom.elementOf, hstyle]
      decide
    · simp only [htmlRawTextParent, Dom.elementOf, hstyle]
      decide

end Render.Html
