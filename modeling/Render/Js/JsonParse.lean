/-
`JsonParser::parse` decides the JSON grammar, up to the depth limit.

Soundness goes down the levels: what `value` reads with so many levels left has a derivation, and its node nests less
deep. Inside a level the loops over elements and members are inductions on the fuel. Completeness goes along the
derivation. Both are about `Cursor.Reads`, so that a value may stand anywhere in a longer text; a value must be
followed by something no numeral goes on with.

- `parse_eq_ok`: `parse` returns a node exactly if the input is a JSON text of that node and no value of it stands in
  more than 128 arrays and objects; every primitive of it carries the range of its own text, which parses to the same
  primitive again.
-/
import Render.Js.JsonGrammar

namespace Render.Js.Json

open Cursor Render.Core

/-! ## Nesting and leaves -/

section Nodes

variable {N : Type}

mutual

/-- how many arrays and objects of the node the deepest value in it stands in -/
def JsonNode.nesting : JsonNode N → ℕ
  | .primitive _ _ _ => 0
  | .array nodes => elementsNesting nodes
  | .object nodes => membersNesting nodes

def elementsNesting : List (JsonNode N) → ℕ
  | [] => 0
  | node :: nodes => max (node.nesting + 1) (elementsNesting nodes)

def membersNesting : List (List ℕ × JsonNode N) → ℕ
  | [] => 0
  | (_, node) :: nodes => max (node.nesting + 1) (membersNesting nodes)

end

/-- a primitive of the node, with its range -/
inductive JsonNode.Leaf : JsonNode N → Primitive N → ℕ → ℕ → Prop where
  | here (value : Primitive N) (start stop : ℕ) : Leaf (.primitive value start stop) value start stop
  | element {nodes : List (JsonNode N)} {node : JsonNode N} {value : Primitive N} {start stop : ℕ} (hm : node ∈ nodes)
      (hl : node.Leaf value start stop) : Leaf (.array nodes) value start stop
  | member {nodes : List (List ℕ × JsonNode N)} {key : List ℕ} {node : JsonNode N} {value : Primitive N}
      {start stop : ℕ} (hm : (key, node) ∈ nodes) (hl : node.Leaf value start stop) :
      Leaf (.object nodes) value start stop

end Nodes

/-! ## Numbers -/

/-- a numeral is ASCII -/
theorem numeral_ascii (n : Numeral) : ∀ unit ∈ n.text, unit < 0x100 := by
  have hdigit : ∀ {unit}, isDigit unit = true → unit < 0x100 := by
    intro unit hu
    simp only [isDigit, Bool.and_eq_true, decide_eq_true_eq] at hu
    omega
  intro unit hu
  simp only [Numeral.text, List.mem_append] at hu
  rcases hu with hu | hu | hu | hu
  · unfold Numeral.sign at hu
    split_ifs at hu
    · simp only [List.mem_singleton] at hu
      omega
    · cases hu
  · exact hdigit (n.whole_digits unit hu)
  · unfold fractionText at hu
    split_ifs at hu
    · cases hu
    · rcases List.mem_cons.1 hu with rfl | hu
      · decide
      · exact hdigit (n.fraction_digits unit hu)
  · have he := n.exponent_text
    generalize n.exponent = exponent, n.power = power at he hu
    cases he with
    | none => cases hu
    | some hl hs hne hd =>
      rcases List.mem_cons.1 hu with rfl | hu
      · omega
      · rcases List.mem_append.1 hu with hu | hu
        · rcases hs with rfl | rfl | rfl <;> simp at hu <;> omega
        · exact hdigit (hd unit hu)

section Values

variable {N : Type} {round : Bool → ℚ → N}

/-- the node of a numeral that ends at `stop` -/
theorem number_eq {n : Numeral} {c c' : Cursor} (h : c.Reads n.text c') (he : numberEnd c = .ok c') :
    number round c =
      .ok (.primitive (.number (round n.negative n.magnitude)) c.position (c.position + n.text.length), c') := by
  have htext : c.rest.take (c'.position - c.position) = n.text := by
    rw [h.position, Nat.add_sub_cancel_left, h.rest, List.take_left]
  have hmap : (n.text.map fun unit => if unit < 0x100 then unit else 0x3F) = n.text := by
    conv_rhs => rw [← List.map_id n.text]
    refine List.map_congr_left fun unit hu => ?_
    rw [if_pos (numeral_ascii n unit hu)]
    rfl
  rw [number, he]
  simp only [bind, Except.bind, htext, hmap, parseF64_text]
  rw [h.position]

theorem number_sound {c c' : Cursor} {node : JsonNode N} (h : number round c = .ok (node, c')) :
    ∃ text, c.Reads text c' ∧ ValueText round c.position text node ∧ node.nesting = 0 := by
  obtain ⟨stop, he, h'⟩ := bind_eq_ok.1 h
  obtain ⟨n, hn⟩ := numberEnd_sound he
  rw [number_eq hn he] at h
  cases h
  exact ⟨n.text, hn, .number _ n, by rw [JsonNode.nesting]⟩

/-! ## What is accepted is in the grammar -/

/-- what a reading of values must do: it reads a value of the grammar, nested less deep than the levels -/
def Sound (round : Bool → ℚ → N) (levels : ℕ) (read : Cursor → Except String (JsonNode N × Cursor)) : Prop :=
  ∀ {c c' : Cursor} {node : JsonNode N}, read c = .ok (node, c') → ∃ before text, c.Reads (before ++ text) c' ∧
    Blank before ∧ ValueText round (c.position + before.length) text node ∧ node.nesting < levels

theorem elements_sound {levels fuel : ℕ} {read : Cursor → Except String (JsonNode N × Cursor)}
    (hread : Sound round levels read) {values : List (JsonNode N)} {c c' : Cursor} {node : JsonNode N}
    (h : elements read fuel values c = .ok (node, c')) : ∃ text nodes, c.Reads (text ++ [0x5D]) c' ∧
      ElementsText round c.position text nodes ∧ node = .array (values ++ nodes) ∧ elementsNesting nodes ≤ levels := by
  induction fuel generalizing values c with
  | zero => cases h
  | succ fuel ih =>
    rw [elements] at h
    obtain ⟨⟨first, c1⟩, h1, h⟩ := bind_eq_ok.1 h
    obtain ⟨before, text, hr, hb, hv, hn⟩ := hread h1
    obtain ⟨after, ha, hw⟩ := whitespace_reads c1
    have hall := hr.trans hw
    rw [List.append_assoc] at hall
    dsimp only at h
    split at h
    · next c2 _ hc =>
      cases h
      refine ⟨before ++ (text ++ after), [first], hall.trans ((consume_eq_some (by decide)).1 hc), .one hb hv ha, rfl,
        ?_⟩
      simp only [elementsNesting]
      omega
    · next c2 hc1 hc =>
      have hcomma := hall.trans ((consume_eq_some (by decide)).1 hc)
      obtain ⟨later, nodes, hl, ht, rfl, hd⟩ := ih h
      rw [hcomma.position, List.length_append, ← Nat.add_assoc] at ht
      refine ⟨_, _, ?_, .more hb hv ha ht, by simp, ?_⟩
      · have := hcomma.trans hl
        simpa using this
      · simp only [elementsNesting]
        omega
    · cases h

theorem name_sound {c c' : Cursor} {key : List ℕ} (h : name c = .ok (key, c')) :
    ∃ label, c.Reads label c' ∧ NameText label key := by
  unfold name at h
  obtain ⟨before, hb, hw⟩ := whitespace_reads c
  dsimp only at h
  split_ifs at h with hq
  obtain ⟨⟨units, c1⟩, hs, h⟩ := bind_eq_ok.1 h
  obtain ⟨text, ht, hst⟩ := string_sound hs
  obtain ⟨after, ha, hw'⟩ := whitespace_reads c1
  dsimp only at h
  split at h
  · next c2 hc =>
    cases h
    have hall := hw.trans (ht.trans (hw'.trans ((consume_eq_some (by decide)).1 hc)))
    exact ⟨_, hall, before, text, after, rfl, hb, hst, ha⟩
  · cases h

theorem members_sound {levels fuel : ℕ} {read : Cursor → Except String (JsonNode N × Cursor)}
    (hread : Sound round levels read) {properties : List (List ℕ × JsonNode N)} {c c' : Cursor} {node : JsonNode N}
    (h : members read fuel properties c = .ok (node, c')) : ∃ text nodes, c.Reads (text ++ [0x7D]) c' ∧
      MembersText round c.position text nodes ∧ node = .object (properties ++ nodes) ∧
      membersNesting nodes ≤ levels := by
  induction fuel generalizing properties c with
  | zero => cases h
  | succ fuel ih =>
    rw [members] at h
    obtain ⟨⟨key, c0⟩, h0, h⟩ := bind_eq_ok.1 h
    obtain ⟨label, hlabel, hname⟩ := name_sound h0
    obtain ⟨⟨first, c1⟩, h1, h⟩ := bind_eq_ok.1 h
    obtain ⟨before, text, hr, hb, hv, hn⟩ := hread h1
    rw [hlabel.position] at hv
    obtain ⟨after, ha, hw⟩ := whitespace_reads c1
    have hvalue := hr.trans hw
    rw [List.append_assoc] at hvalue
    have hall := hlabel.trans hvalue
    dsimp only at h
    split at h
    · next c2 _ hc =>
      cases h
      refine ⟨label ++ (before ++ (text ++ after)), [(key, first)], hall.trans ((consume_eq_some (by decide)).1 hc),
        .one hname hb hv ha, rfl, ?_⟩
      simp only [membersNesting]
      omega
    · next c2 hc1 hc =>
      have hcomma := hall.trans ((consume_eq_some (by decide)).1 hc)
      obtain ⟨later, nodes, hl, ht, rfl, hd⟩ := ih h
      rw [hcomma.position, List.length_append, ← Nat.add_assoc] at ht
      refine ⟨_, _, ?_, .more hname hb hv ha ht, by simp, ?_⟩
      · have := hcomma.trans hl
        simpa using this
      · simp only [membersNesting]
        omega
    · cases h

theorem word_sound {text : List ℕ} {v : Primitive N} {c c' : Cursor} {node : JsonNode N}
    (h : word text v c = .ok (node, c')) :
    c.Reads text c' ∧ node = .primitive v c.position (c.position + text.length) := by
  obtain ⟨stop, hl, h⟩ := bind_eq_ok.1 h
  cases h
  have hr := literal_eq_ok.1 hl
  exact ⟨hr, by rw [hr.position]⟩

theorem Blank.append {s t : List ℕ} (hs : Blank s) (ht : Blank t) : Blank (s ++ t) := by
  intro unit hu
  rcases List.mem_append.1 hu with hu | hu
  · exact hs unit hu
  · exact ht unit hu

/-- white space before elements is white space before the first of them -/
theorem ElementsText.blank {start : ℕ} {blank text : List ℕ} {nodes : List (JsonNode N)} (hb : Blank blank)
    (h : ElementsText round (start + blank.length) text nodes) : ElementsText round start (blank ++ text) nodes := by
  cases h with
  | one hb' hv ha =>
    rw [← List.append_assoc]
    refine .one (hb.append hb') ?_ ha
    rwa [List.length_append, ← Nat.add_assoc]
  | @more _ before text after later _ nodes hb' hv ha hl =>
    have htext : blank ++ (before ++ (text ++ after) ++ 0x2C :: later) =
        (blank ++ before) ++ (text ++ after) ++ 0x2C :: later := by simp
    rw [htext]
    refine .more (hb.append hb') ?_ ha ?_
    · rwa [List.length_append, ← Nat.add_assoc]
    · rwa [List.append_assoc, @List.length_append _ blank, ← Nat.add_assoc]

theorem NameText.blank {blank label key : List ℕ} (hb : Blank blank) (h : NameText label key) :
    NameText (blank ++ label) key := by
  obtain ⟨before, text, after, rfl, hb', hs, ha⟩ := h
  exact ⟨blank ++ before, text, after, by simp, hb.append hb', hs, ha⟩

theorem MembersText.blank {start : ℕ} {blank text : List ℕ} {nodes : List (List ℕ × JsonNode N)} (hb : Blank blank)
    (h : MembersText round (start + blank.length) text nodes) : MembersText round start (blank ++ text) nodes := by
  cases h with
  | one hn hb' hv ha =>
    rw [← List.append_assoc]
    refine .one (hn.blank hb) hb' ?_ ha
    rwa [List.length_append, ← Nat.add_assoc]
  | @more _ label key before text after later _ nodes hn hb' hv ha hl =>
    have htext : blank ++ (label ++ (before ++ (text ++ after)) ++ 0x2C :: later) =
        (blank ++ label) ++ (before ++ (text ++ after)) ++ 0x2C :: later := by simp
    rw [htext]
    refine .more (hn.blank hb) hb' ?_ ha ?_
    · rwa [List.length_append, ← Nat.add_assoc]
    · rwa [List.append_assoc, @List.length_append _ blank, ← Nat.add_assoc]

theorem array_sound {levels : ℕ} {read : Cursor → Except String (JsonNode N × Cursor)}
    (hread : Sound round levels read) {c c' : Cursor} {node : JsonNode N} {later : List ℕ} (hc : c.rest = 0x5B :: later)
    (h : array read c = .ok (node, c')) :
    ∃ text, c.Reads text c' ∧ ValueText round c.position text node ∧ node.nesting ≤ levels := by
  obtain ⟨blank, hb, hw⟩ := whitespace_reads c.advance
  have hopen := reads_advance hc
  unfold array at h
  dsimp only at h
  split at h
  · next c1 h1 =>
    cases h
    have hall := hopen.trans (hw.trans ((consume_eq_some (by decide)).1 h1))
    exact ⟨_, hall, .emptyArray _ hb, by simp [JsonNode.nesting, elementsNesting]⟩
  · obtain ⟨text, nodes, hr, ht, rfl, hn⟩ := elements_sound hread h
    have hall := hopen.trans (hw.trans hr)
    rw [← List.append_assoc blank] at hall
    rw [hw.position] at ht
    exact ⟨_, hall, .array _ (ht.blank hb), by rwa [List.nil_append, JsonNode.nesting]⟩

theorem object_sound {levels : ℕ} {read : Cursor → Except String (JsonNode N × Cursor)}
    (hread : Sound round levels read) {c c' : Cursor} {node : JsonNode N} {later : List ℕ} (hc : c.rest = 0x7B :: later)
    (h : object read c = .ok (node, c')) :
    ∃ text, c.Reads text c' ∧ ValueText round c.position text node ∧ node.nesting ≤ levels := by
  obtain ⟨blank, hb, hw⟩ := whitespace_reads c.advance
  have hopen := reads_advance hc
  unfold object at h
  dsimp only at h
  split at h
  · next c1 h1 =>
    cases h
    have hall := hopen.trans (hw.trans ((consume_eq_some (by decide)).1 h1))
    exact ⟨_, hall, .emptyObject _ hb, by simp [JsonNode.nesting, membersNesting]⟩
  · obtain ⟨text, nodes, hr, ht, rfl, hn⟩ := members_sound hread h
    have hall := hopen.trans (hw.trans hr)
    rw [← List.append_assoc blank] at hall
    rw [hw.position] at ht
    exact ⟨_, hall, .object _ (ht.blank hb), by rwa [List.nil_append, JsonNode.nesting]⟩

theorem valueAt_sound {levels : ℕ} {read : Cursor → Except String (JsonNode N × Cursor)}
    (hread : Sound round levels read) {c c' : Cursor} {node : JsonNode N} (h : valueAt round read c = .ok (node, c')) :
    ∃ text, c.Reads text c' ∧ ValueText round c.position text node ∧ node.nesting ≤ levels := by
  unfold valueAt at h
  cases hp : c.peek with
  | none => simp [hp] at h
  | some byte =>
    obtain ⟨unit, later, hr, hb⟩ := peek_isSome hp
    simp only [hp] at h
    split_ifs at h with hn ht hf hq ha ho hd
    · obtain ⟨hr, rfl⟩ := word_sound h
      exact ⟨_, hr, .null _, by simp [JsonNode.nesting]⟩
    · obtain ⟨hr, rfl⟩ := word_sound h
      exact ⟨_, hr, .true _, by simp [JsonNode.nesting]⟩
    · obtain ⟨hr, rfl⟩ := word_sound h
      exact ⟨_, hr, .false _, by simp [JsonNode.nesting]⟩
    · obtain ⟨⟨units, stop⟩, hs, h⟩ := bind_eq_ok.1 h
      obtain ⟨text, htext, hst⟩ := string_sound hs
      cases h
      refine ⟨text, htext, ?_, by simp [JsonNode.nesting]⟩
      rw [htext.position]
      exact .string _ hst
    · have hu : unit = 0x5B := (byteOf_eq (by decide)).1 (hb.trans ha)
      exact array_sound hread (hu ▸ hr) h
    · have hu : unit = 0x7B := (byteOf_eq (by decide)).1 (hb.trans ho)
      exact object_sound hread (hu ▸ hr) h
    · obtain ⟨text, htext, hv, hz⟩ := number_sound h
      exact ⟨text, htext, hv, by omega⟩

/-- what `value` reads is white space and a value, nested less deep than its levels -/
theorem value_sound (levels : ℕ) : Sound round levels (value round levels) := by
  induction levels with
  | zero =>
    intro c c' node h
    cases h
  | succ levels ih =>
    intro c c' node h
    obtain ⟨blank, hb, hw⟩ := whitespace_reads c
    obtain ⟨text, hr, hv, hn⟩ := valueAt_sound ih h
    rw [hw.position] at hv
    exact ⟨blank, text, hw.trans hr, hb, hv, by omega⟩

/-! ## What is in the grammar is accepted -/

theorem blank_isNumeralUnit {unit : ℕ} (h : isBlank unit = true) : isNumeralUnit unit = false := by
  simp only [isBlank, Bool.or_eq_true, decide_eq_true_eq] at h
  rcases h with ((rfl | rfl) | rfl) | rfl <;> decide

/-- white space and closing units end a numeral -/
theorem ends_of_reads {c c' : Cursor} {blank : List ℕ} {unit : ℕ} (h : c.Reads (blank ++ [unit]) c') (hb : Blank blank)
    (hu : isNumeralUnit unit = false) : Ends c := by
  cases blank with
  | nil => exact stops_of_reads h hu
  | cons first later => exact stops_of_reads h (blank_isNumeralUnit (hb first List.mem_cons_self))

/-- a numeral begins with a minus or a digit -/
theorem numeral_head (n : Numeral) : ∃ unit later, n.text = unit :: later ∧ (unit = 0x2D ∨ isDigit unit = true) := by
  obtain ⟨first, later, hw, hd⟩ := n.whole_head
  unfold Numeral.text Numeral.sign
  split_ifs
  · exact ⟨0x2D, _, rfl, .inl rfl⟩
  · rw [hw]
    exact ⟨first, _, rfl, .inr hd⟩

/-- a value begins neither with white space nor with a closing bracket -/
theorem valueText_head {start : ℕ} {text : List ℕ} {node : JsonNode N} (h : ValueText round start text node) :
    ∃ unit later, text = unit :: later ∧ isBlank unit = false ∧ unit ≠ 0x5D := by
  cases h with
  | null => exact ⟨_, _, rfl, by decide, by decide⟩
  | true => exact ⟨_, _, rfl, by decide, by decide⟩
  | false => exact ⟨_, _, rfl, by decide, by decide⟩
  | string _ h =>
    obtain ⟨body, rfl, -⟩ := h
    exact ⟨_, _, rfl, by decide, by decide⟩
  | number _ n =>
    obtain ⟨unit, later, ht, hu⟩ := numeral_head n
    simp only [isDigit, Bool.and_eq_true, decide_eq_true_eq] at hu
    refine ⟨unit, later, ht, ?_, by omega⟩
    simp only [isBlank, Bool.or_eq_false_iff, decide_eq_false_iff_not]
    omega
  | emptyArray => exact ⟨_, _, rfl, by decide, by decide⟩
  | array => exact ⟨_, _, rfl, by decide, by decide⟩
  | emptyObject => exact ⟨_, _, rfl, by decide, by decide⟩
  | object => exact ⟨_, _, rfl, by decide, by decide⟩

theorem whitespace_stops (c : Cursor) : c.whitespace.Stops isBlank := by
  intro unit hu
  have hf : (fun unit => isBlank (byteOf unit)) = isBlank := funext isBlank_byteOf
  rw [whitespace, skipWhile, hf] at hu
  have := List.head?_dropWhile_not isBlank c.rest
  rw [Option.mem_def.1 hu] at this
  simpa using this

@[simp] theorem whitespace_whitespace (c : Cursor) : c.whitespace.whitespace = c.whitespace :=
  whitespace_eq (Reads.refl _) (by simp [Blank]) (whitespace_stops c)

/-- a value, an element and a name skip white space first: white space skipped before is nothing to them -/
theorem value_whitespace (levels : ℕ) (c : Cursor) : value round levels c.whitespace = value round levels c := by
  cases levels with
  | zero => rfl
  | succ levels => rw [value, value, whitespace_whitespace]

theorem elements_whitespace (levels fuel : ℕ) (values : List (JsonNode N)) (c : Cursor) :
    elements (value round levels) (fuel + 1) values c.whitespace =
      elements (value round levels) (fuel + 1) values c := by
  rw [elements, elements, value_whitespace]

theorem name_whitespace (c : Cursor) : name c.whitespace = name c := by
  rw [name, name, whitespace_whitespace]

theorem members_whitespace (levels fuel : ℕ) (properties : List (List ℕ × JsonNode N)) (c : Cursor) :
    members (value round levels) (fuel + 1) properties c.whitespace =
      members (value round levels) (fuel + 1) properties c := by
  rw [members, members, name_whitespace]

theorem name_complete {c c' : Cursor} {label key : List ℕ} (h : c.Reads label c') (hn : NameText label key) :
    name c = .ok (key, c') := by
  obtain ⟨before, text, after, rfl, hb, hs, ha⟩ := hn
  obtain ⟨c1, h1, h⟩ := h.split
  obtain ⟨c2, h2, h⟩ := h.split
  obtain ⟨c3, h3, h4⟩ := h.split
  have hquote : c1.rest.head? = some 0x22 := by
    obtain ⟨body, rfl, -⟩ := hs
    exact h2.of_cons.1
  have hstop : c1.Stops isBlank := by
    intro unit hu
    rw [hquote] at hu
    cases hu
    decide
  have hcolon : c3.Stops isBlank := stops_of_reads h4 (by decide)
  unfold name
  rw [whitespace_eq h1 hb hstop]
  dsimp only
  rw [if_pos ((peek_eq (by decide)).2 hquote), string_complete h2 hs]
  simp only [bind, Except.bind, whitespace_eq h3 ha hcolon, (consume_eq_some (by decide)).2 h4]

theorem elementsText_length {start : ℕ} {text : List ℕ} {nodes : List (JsonNode N)}
    (h : ElementsText round start text nodes) : nodes.length ≤ text.length := by
  cases h with
  | one hb hv ha =>
    obtain ⟨unit, later, rfl, -⟩ := valueText_head hv
    simp only [List.length_append, List.length_cons, List.length_nil]
    omega
  | more hb hv ha hl =>
    have := elementsText_length hl
    simp only [List.length_append, List.length_cons]
    omega

theorem membersText_length {start : ℕ} {text : List ℕ} {nodes : List (List ℕ × JsonNode N)}
    (h : MembersText round start text nodes) : nodes.length ≤ text.length := by
  cases h with
  | one hn hb hv ha =>
    obtain ⟨unit, later, rfl, -⟩ := valueText_head hv
    simp only [List.length_append, List.length_cons, List.length_nil]
    omega
  | more hn hb hv ha hl =>
    have := membersText_length hl
    simp only [List.length_append, List.length_cons]
    omega

/-- elements are white space and something that does not close the array, with room for each of them -/
theorem elementsText_head {start : ℕ} {text : List ℕ} {nodes : List (JsonNode N)}
    (h : ElementsText round start text nodes) : ∃ blank unit later, text = blank ++ unit :: later ∧ Blank blank ∧
      isBlank unit = false ∧ unit ≠ 0x5D ∧ nodes.length ≤ later.length + 1 := by
  cases h with
  | one hb hv ha =>
    obtain ⟨unit, later, rfl, hu, hc⟩ := valueText_head hv
    exact ⟨_, unit, _, rfl, hb, hu, hc, by simp⟩
  | more hb hv ha hl =>
    obtain ⟨unit, later, rfl, hu, hc⟩ := valueText_head hv
    refine ⟨_, unit, _, by simp; rfl, hb, hu, hc, ?_⟩
    have := elementsText_length hl
    simp only [List.length_append, List.length_cons]
    omega

theorem membersText_head {start : ℕ} {text : List ℕ} {nodes : List (List ℕ × JsonNode N)}
    (h : MembersText round start text nodes) : ∃ blank later, text = blank ++ 0x22 :: later ∧ Blank blank ∧
      nodes.length ≤ later.length + 1 := by
  have hname : ∀ {label key : List ℕ}, NameText label key →
      ∃ blank later, label = blank ++ 0x22 :: later ∧ Blank blank := by
    rintro label key ⟨before, text, after, rfl, hb, ⟨body, rfl, -⟩, -⟩
    exact ⟨before, _, rfl, hb⟩
  cases h with
  | one hn hb hv ha =>
    obtain ⟨blank, later, rfl, hblank⟩ := hname hn
    exact ⟨blank, _, by simp; rfl, hblank, by simp⟩
  | more hn hb hv ha hl =>
    obtain ⟨blank, later, rfl, hblank⟩ := hname hn
    refine ⟨blank, _, by simp; rfl, hblank, ?_⟩
    have := membersText_length hl
    simp only [List.length_append, List.length_cons]
    omega

theorem word_complete {text : List ℕ} (v : Primitive N) {c c' : Cursor} (h : c.Reads text c') :
    word text v c = .ok (.primitive v c.position (c.position + text.length), c') := by
  rw [word, literal_eq_ok.2 h]
  simp only [bind, Except.bind, h.position]

/-- what a value begins with says how it is read -/
theorem valueAt_numeral {inner : Cursor → Except String (JsonNode N × Cursor)} {c : Cursor} {unit : ℕ}
    (h : c.rest.head? = some unit) (hu : unit = 0x2D ∨ isDigit unit = true) :
    valueAt round inner c = number round c := by
  have hb : unit = 0x2D ∨ 0x30 ≤ unit ∧ unit ≤ 0x39 := by
    simpa [isDigit] using hu
  have hp : c.peek = some unit := (peek_eq (by unfold notAscii; omega)).2 h
  have h1 : unit ≠ 0x6E := by omega
  have h2 : unit ≠ 0x74 := by omega
  have h3 : unit ≠ 0x66 := by omega
  have h4 : unit ≠ 0x22 := by omega
  have h5 : unit ≠ 0x5B := by omega
  have h6 : unit ≠ 0x7B := by omega
  unfold valueAt
  rw [hp]
  simp only [h1, h2, h3, h4, h5, h6, hu, ↓reduceIte]

/-- one item of a list: the value is read, and the white space after it -/
theorem item_complete (levels : ℕ) {start : ℕ} {before text after : List ℕ} {node : JsonNode N} (hb : Blank before)
    (hv : ValueText round start text node) (ha : Blank after)
    (hread : ∀ {c c' : Cursor}, c.position = start → c.Reads text c' → Ends c' →
      valueAt round (value round levels) c = .ok (node, c'))
    {c c' : Cursor} {unit : ℕ} (hp : c.position + before.length = start)
    (hr : c.Reads (before ++ (text ++ (after ++ [unit]))) c') (hu : isBlank unit = false)
    (hn : isNumeralUnit unit = false) :
    ∃ c1, value round (levels + 1) c = .ok (node, c1) ∧ c1.whitespace.Reads [unit] c' := by
  obtain ⟨c0, h0, hvalue⟩ := hr.split
  obtain ⟨c1, h1, hafter⟩ := hvalue.split
  obtain ⟨c2, h2, h3⟩ := hafter.split
  obtain ⟨first, later, rfl, hf, -⟩ := valueText_head hv
  refine ⟨c1, ?_, ?_⟩
  · rw [value, whitespace_eq h0 hb (stops_of_reads h1 hf)]
    exact hread (h0.position.trans hp) h1 (ends_of_reads hafter ha hn)
  · rwa [whitespace_eq h2 ha (stops_of_reads h3 hu)]

/-- one comma does not close a list -/
theorem consume_other {c c' : Cursor} {unit other : ℕ} (h : c.Reads [unit] c') (ho : other < notAscii)
    (hne : unit ≠ other) : c.consume other = none := by
  refine (consume_eq_none ho).2 ?_
  rw [h.of_cons.1]
  exact fun he => hne (Option.some.inj he)

/-- an array is read if its elements are -/
theorem array_complete (levels : ℕ) {start : ℕ} {text : List ℕ} {nodes : List (JsonNode N)} {c c' : Cursor}
    (hl : ElementsText round start text nodes) (hp : c.position + 1 = start)
    (hr : c.Reads (0x5B :: (text ++ [0x5D])) c')
    (hread : ∀ {fuel : ℕ} {c1 : Cursor}, c1.position = start → c1.Reads (text ++ [0x5D]) c' → nodes.length ≤ fuel →
      elements (value round levels) fuel [] c1 = .ok (.array nodes, c')) :
    valueAt round (value round levels) c = .ok (.array nodes, c') := by
  obtain ⟨blank, unit, later, htext, hb, hu, hc, hlength⟩ := elementsText_head hl
  have hpeek := (peek_eq (by decide)).2 hr.of_cons.1
  have htail := hr.of_cons.2
  have hsplit := htail
  rw [htext, List.append_assoc] at hsplit
  obtain ⟨c2, h3, h4⟩ := hsplit.split
  have hw := whitespace_eq h3 hb (stops_of_reads h4 hu)
  have hclose : c2.consume 0x5D = none := by
    refine (consume_eq_none (by decide)).2 ?_
    rw [h4.of_cons.1]
    exact fun he => hc (Option.some.inj he)
  have hfuel : later.length + 1 ≤ c2.rest.length + 1 := by
    rw [h4.rest]
    simp only [List.length_append, List.length_cons]
    omega
  have hall := hread hp htail (hlength.trans hfuel)
  rw [← elements_whitespace, hw] at hall
  unfold valueAt
  rw [hpeek]
  simp only [Nat.reduceEqDiff, ↓reduceIte, array, hw, hclose, hall]

/-- an object is read if its members are -/
theorem object_complete (levels : ℕ) {start : ℕ} {text : List ℕ} {nodes : List (List ℕ × JsonNode N)} {c c' : Cursor}
    (hl : MembersText round start text nodes) (hp : c.position + 1 = start)
    (hr : c.Reads (0x7B :: (text ++ [0x7D])) c')
    (hread : ∀ {fuel : ℕ} {c1 : Cursor}, c1.position = start → c1.Reads (text ++ [0x7D]) c' → nodes.length ≤ fuel →
      members (value round levels) fuel [] c1 = .ok (.object nodes, c')) :
    valueAt round (value round levels) c = .ok (.object nodes, c') := by
  obtain ⟨blank, later, htext, hb, hlength⟩ := membersText_head hl
  have hpeek := (peek_eq (by decide)).2 hr.of_cons.1
  have htail := hr.of_cons.2
  have hsplit := htail
  rw [htext, List.append_assoc] at hsplit
  obtain ⟨c2, h3, h4⟩ := hsplit.split
  have hw := whitespace_eq h3 hb (stops_of_reads h4 (by decide))
  have hclose : c2.consume 0x7D = none := by
    refine (consume_eq_none (by decide)).2 ?_
    rw [h4.of_cons.1]
    decide
  have hfuel : later.length + 1 ≤ c2.rest.length + 1 := by
    rw [h4.rest]
    simp only [List.length_append, List.length_cons]
    omega
  have hall := hread hp htail (hlength.trans hfuel)
  rw [← members_whitespace, hw] at hall
  unfold valueAt
  rw [hpeek]
  simp only [Nat.reduceEqDiff, ↓reduceIte, object, hw, hclose, hall]

theorem emptyArray_complete (inner : Cursor → Except String (JsonNode N × Cursor)) {blank : List ℕ} {c c' : Cursor}
    (hb : Blank blank) (hr : c.Reads (0x5B :: (blank ++ [0x5D])) c') : valueAt round inner c = .ok (.array [], c') := by
  obtain ⟨c2, h3, h4⟩ := hr.of_cons.2.split
  have hpeek := (peek_eq (by decide)).2 hr.of_cons.1
  have hw := whitespace_eq h3 hb (stops_of_reads h4 (by decide))
  unfold valueAt
  rw [hpeek]
  simp only [Nat.reduceEqDiff, ↓reduceIte, array, hw, (consume_eq_some (by decide)).2 h4]

theorem emptyObject_complete (inner : Cursor → Except String (JsonNode N × Cursor)) {blank : List ℕ} {c c' : Cursor}
    (hb : Blank blank) (hr : c.Reads (0x7B :: (blank ++ [0x7D])) c') :
    valueAt round inner c = .ok (.object [], c') := by
  obtain ⟨c2, h3, h4⟩ := hr.of_cons.2.split
  have hpeek := (peek_eq (by decide)).2 hr.of_cons.1
  have hw := whitespace_eq h3 hb (stops_of_reads h4 (by decide))
  unfold valueAt
  rw [hpeek]
  simp only [Nat.reduceEqDiff, ↓reduceIte, object, hw, (consume_eq_some (by decide)).2 h4]

mutual

/-- a value of the grammar is read at its own text, if the levels suffice and no numeral could go on -/
theorem valueAt_complete {start : ℕ} {text : List ℕ} {node : JsonNode N} (h : ValueText round start text node)
    {levels : ℕ} {c c' : Cursor} (hn : node.nesting ≤ levels) (hp : c.position = start) (hr : c.Reads text c')
    (he : Ends c') : valueAt round (value round levels) c = .ok (node, c') := by
  cases h with
  | null =>
    have hpeek := (peek_eq (by decide)).2 hr.of_cons.1
    unfold valueAt
    rw [hpeek]
    simp only [↓reduceIte, word_complete .null hr, hp]
    rfl
  | true =>
    have hpeek := (peek_eq (by decide)).2 hr.of_cons.1
    unfold valueAt
    rw [hpeek]
    simp only [↓reduceIte, word_complete (.boolean true) hr, hp]
    rfl
  | false =>
    have hpeek := (peek_eq (by decide)).2 hr.of_cons.1
    unfold valueAt
    rw [hpeek]
    simp only [↓reduceIte, word_complete (.boolean false) hr, hp]
    rfl
  | string _ h =>
    have hs := string_complete hr h
    obtain ⟨body, rfl, -⟩ := h
    have hpeek := (peek_eq (by decide)).2 hr.of_cons.1
    unfold valueAt
    rw [hpeek]
    simp only [↓reduceIte, hs, bind, Except.bind, hr.position, hp]
    rfl
  | number _ n =>
    obtain ⟨unit, later, ht, hu⟩ := numeral_head n
    have hhead : c.rest.head? = some unit := by
      have := hr
      rw [ht] at this
      exact this.of_cons.1
    rw [valueAt_numeral hhead hu, number_eq hr (numberEnd_complete hr he), hp]
  | emptyArray _ hb => exact emptyArray_complete _ hb hr
  | array _ hl =>
    rw [JsonNode.nesting] at hn
    exact array_complete levels hl (congrArg (· + 1) hp) hr fun hp' hr' hf' => elements_complete hl [] hn hp' hr' hf'
  | emptyObject _ hb => exact emptyObject_complete _ hb hr
  | object _ hl =>
    rw [JsonNode.nesting] at hn
    exact object_complete levels hl (congrArg (· + 1) hp) hr fun hp' hr' hf' => members_complete hl [] hn hp' hr' hf'

theorem elements_complete {start : ℕ} {text : List ℕ} {nodes : List (JsonNode N)}
    (h : ElementsText round start text nodes) (values : List (JsonNode N)) {levels fuel : ℕ} {c c' : Cursor}
    (hn : elementsNesting nodes ≤ levels) (hp : c.position = start) (hr : c.Reads (text ++ [0x5D]) c')
    (hf : nodes.length ≤ fuel) : elements (value round levels) fuel values c = .ok (.array (values ++ nodes), c') := by
  cases h with
  | @one _ before text after node hb hv ha =>
    simp only [elementsNesting] at hn
    obtain ⟨levels, rfl⟩ := Nat.exists_eq_add_one_of_ne_zero (by omega : levels ≠ 0)
    obtain ⟨fuel, rfl⟩ := Nat.exists_eq_add_one_of_ne_zero (by simp at hf; omega : fuel ≠ 0)
    obtain ⟨c1, h1, h2⟩ := item_complete levels hb hv ha
      (fun hp' hr' he' => valueAt_complete hv (by omega) hp' hr' he')
      (congrArg (· + before.length) hp) (by simpa using hr) (by decide) (by decide)
    rw [elements, h1]
    simp only [bind, Except.bind, (consume_eq_some (by decide)).2 h2]
  | @more _ before text after later node nodes hb hv ha hl =>
    simp only [elementsNesting] at hn
    obtain ⟨levels, rfl⟩ := Nat.exists_eq_add_one_of_ne_zero (by omega : levels ≠ 0)
    obtain ⟨fuel, rfl⟩ := Nat.exists_eq_add_one_of_ne_zero (by simp at hf; omega : fuel ≠ 0)
    have hall : c.Reads (before ++ (text ++ (after ++ [0x2C])) ++ (later ++ [0x5D])) c' := by simpa using hr
    obtain ⟨c3, h3, h4⟩ := hall.split
    obtain ⟨c1, h1, h2⟩ := item_complete levels hb hv ha
      (fun hp' hr' he' => valueAt_complete hv (by omega) hp' hr' he')
      (congrArg (· + before.length) hp) h3 (by decide) (by decide)
    have hclose : c1.whitespace.consume 0x5D = none := consume_other h2 (by decide) (by decide)
    have hp3 : c3.position = start + (before ++ (text ++ after)).length + 1 := by
      rw [h3.position, hp]
      simp only [List.length_append, List.length_cons, List.length_nil]
      omega
    have hnesting : elementsNesting nodes ≤ levels + 1 := by omega
    have hlater := elements_complete hl (values ++ [node]) hnesting hp3 h4 (by simp at hf; omega : nodes.length ≤ fuel)
    rw [elements, h1]
    simp only [bind, Except.bind, (consume_eq_some (by decide)).2 h2, hclose, hlater, List.append_assoc,
      List.singleton_append]

theorem members_complete {start : ℕ} {text : List ℕ} {nodes : List (List ℕ × JsonNode N)}
    (h : MembersText round start text nodes) (properties : List (List ℕ × JsonNode N)) {levels fuel : ℕ} {c c' : Cursor}
    (hn : membersNesting nodes ≤ levels) (hp : c.position = start) (hr : c.Reads (text ++ [0x7D]) c')
    (hf : nodes.length ≤ fuel) :
    members (value round levels) fuel properties c = .ok (.object (properties ++ nodes), c') := by
  cases h with
  | @one _ label key before text after node hname hb hv ha =>
    simp only [membersNesting] at hn
    obtain ⟨levels, rfl⟩ := Nat.exists_eq_add_one_of_ne_zero (by omega : levels ≠ 0)
    obtain ⟨fuel, rfl⟩ := Nat.exists_eq_add_one_of_ne_zero (by simp at hf; omega : fuel ≠ 0)
    have hall : c.Reads (label ++ (before ++ (text ++ (after ++ [0x7D])))) c' := by simpa using hr
    obtain ⟨c0, h0, hvalue⟩ := hall.split
    have hp0 : c0.position = start + label.length := by rw [h0.position, hp]
    obtain ⟨c1, h1, h2⟩ := item_complete levels hb hv ha
      (fun hp' hr' he' => valueAt_complete hv (by omega) hp' hr' he')
      (congrArg (· + before.length) hp0) hvalue (by decide) (by decide)
    rw [members, name_complete h0 hname]
    simp only [bind, Except.bind, h1, (consume_eq_some (by decide)).2 h2]
  | @more _ label key before text after later node nodes hname hb hv ha hl =>
    simp only [membersNesting] at hn
    obtain ⟨levels, rfl⟩ := Nat.exists_eq_add_one_of_ne_zero (by omega : levels ≠ 0)
    obtain ⟨fuel, rfl⟩ := Nat.exists_eq_add_one_of_ne_zero (by simp at hf; omega : fuel ≠ 0)
    have hall : c.Reads (label ++ (before ++ (text ++ (after ++ [0x2C])) ++ (later ++ [0x7D]))) c' := by simpa using hr
    obtain ⟨c0, h0, hvalues⟩ := hall.split
    obtain ⟨c3, h3, h4⟩ := hvalues.split
    have hp0 : c0.position = start + label.length := by rw [h0.position, hp]
    obtain ⟨c1, h1, h2⟩ := item_complete levels hb hv ha
      (fun hp' hr' he' => valueAt_complete hv (by omega) hp' hr' he')
      (congrArg (· + before.length) hp0) h3 (by decide) (by decide)
    have hclose : c1.whitespace.consume 0x7D = none := consume_other h2 (by decide) (by decide)
    have hp3 : c3.position = start + (label ++ (before ++ (text ++ after))).length + 1 := by
      rw [h3.position, hp0]
      simp only [List.length_append, List.length_cons, List.length_nil]
      omega
    have hnesting : membersNesting nodes ≤ levels + 1 := by omega
    have hlater := members_complete hl (properties ++ [(key, node)]) hnesting hp3 h4
      (by simp at hf; omega : nodes.length ≤ fuel)
    rw [members, name_complete h0 hname]
    simp only [bind, Except.bind, h1, (consume_eq_some (by decide)).2 h2, hclose, hlater, List.append_assoc,
      List.singleton_append]

end

/-! ## The whole text -/

/-- `parse` makes a node exactly of a JSON text that nests within the limit -/
theorem parse_iff (input : List ℕ) (node : JsonNode N) :
    parse round input = .ok node ↔ JsonText round input node ∧ node.nesting ≤ depthLimit := by
  constructor
  · intro h
    obtain ⟨⟨first, c⟩, h1, h⟩ := bind_eq_ok.1 h
    obtain ⟨before, text, hr, hb, hv, hn⟩ := value_sound (depthLimit + 1) h1
    obtain ⟨after, ha, hw⟩ := whitespace_reads c
    dsimp only at h
    split_ifs at h with he
    cases h
    refine ⟨⟨before, text, after, ?_, hb, ?_, ha⟩, by omega⟩
    · have := (hr.trans hw).rest
      rwa [he, List.append_nil, List.append_assoc] at this
    · simpa using hv
  · rintro ⟨⟨before, text, after, rfl, hb, hv, ha⟩, hn⟩
    obtain ⟨unit, later, htext, hu, -⟩ := valueText_head hv
    have hall : (⟨0, before ++ (text ++ after)⟩ : Cursor).Reads (before ++ (text ++ after))
        ⟨(before ++ (text ++ after)).length, []⟩ := ⟨by simp, by simp⟩
    obtain ⟨c1, h1, h2⟩ := hall.split
    obtain ⟨c2, h3, h4⟩ := h2.split
    have hends : Ends c2 := by
      cases after with
      | nil =>
        rw [← h4.nil_eq]
        intro unit hu
        cases hu
      | cons first more => exact stops_of_reads h4 (blank_isNumeralUnit (ha first List.mem_cons_self))
    have hvalue : value round (depthLimit + 1) ⟨0, before ++ (text ++ after)⟩ = .ok (node, c2) := by
      rw [value, whitespace_eq h1 hb (stops_of_reads (htext ▸ h3) hu)]
      exact valueAt_complete hv hn (by rw [h1.position]; simp) h3 hends
    have hw := whitespace_eq h4 ha (by intro unit hu; cases hu)
    rw [parse, hvalue]
    simp only [bind, Except.bind, hw, ↓reduceIte]

/-! ## The range of a primitive -/

/-- the primitive's own text stands in the text, at its range -/
def Holds (round : Bool → ℚ → N) (start : ℕ) (text : List ℕ) (v : Primitive N) (first stop : ℕ) : Prop :=
  ∃ before own after, text = before ++ (own ++ after) ∧ first = start + before.length ∧ stop = first + own.length ∧
    ValueText round 0 own (.primitive v 0 own.length)

theorem Holds.within {start : ℕ} (before : List ℕ) {text : List ℕ} (after : List ℕ) {v : Primitive N} {first stop : ℕ}
    (h : Holds round (start + before.length) text v first stop) :
    Holds round start (before ++ (text ++ after)) v first stop := by
  obtain ⟨pre, own, post, rfl, hf, hs, hv⟩ := h
  refine ⟨before ++ pre, own, post ++ after, by simp, ?_, hs, hv⟩
  rw [hf, List.length_append, Nat.add_assoc]

/-- a primitive is its own text, wherever it stands -/
theorem primitive_holds {start first stop : ℕ} {text : List ℕ} {v : Primitive N}
    (h : ValueText round start text (.primitive v first stop)) : Holds round start text v first stop := by
  refine ⟨[], text, [], by simp, ?_⟩
  cases h with
  | null => exact ⟨rfl, rfl, .null 0⟩
  | true => exact ⟨rfl, rfl, .true 0⟩
  | false => exact ⟨rfl, rfl, .false 0⟩
  | string _ h => exact ⟨rfl, rfl, by simpa using (ValueText.string 0 h : ValueText round 0 text _)⟩
  | number _ n => exact ⟨rfl, rfl, by simpa using (ValueText.number 0 n : ValueText round 0 n.text _)⟩

/-- every element has its text among the elements -/
theorem element_text {start : ℕ} {text : List ℕ} {nodes : List (JsonNode N)} (h : ElementsText round start text nodes)
    {node : JsonNode N} (hm : node ∈ nodes) :
    ∃ before own after, text = before ++ (own ++ after) ∧ ValueText round (start + before.length) own node := by
  cases h with
  | one hb hv ha =>
    cases List.mem_singleton.1 hm
    exact ⟨_, _, _, rfl, hv⟩
  | @more _ before own after later _ _ hb hv ha hl =>
    rcases List.mem_cons.1 hm with rfl | hm
    · exact ⟨before, own, after ++ 0x2C :: later, by simp, hv⟩
    · obtain ⟨pre, mine, post, rfl, hmine⟩ := element_text hl hm
      refine ⟨before ++ (own ++ after) ++ 0x2C :: pre, mine, post, by simp, ?_⟩
      have hoffset : start + (before ++ (own ++ after) ++ 0x2C :: pre).length =
          start + (before ++ (own ++ after)).length + 1 + pre.length := by
        simp only [List.length_append, List.length_cons]
        omega
      rwa [hoffset]

theorem member_text {start : ℕ} {text : List ℕ} {nodes : List (List ℕ × JsonNode N)}
    (h : MembersText round start text nodes) {key : List ℕ} {node : JsonNode N} (hm : (key, node) ∈ nodes) :
    ∃ before own after, text = before ++ (own ++ after) ∧ ValueText round (start + before.length) own node := by
  cases h with
  | @one _ label _ before own after _ hn hb hv ha =>
    cases List.mem_singleton.1 hm
    exact ⟨label ++ before, own, after, by simp, by rwa [List.length_append, ← Nat.add_assoc]⟩
  | @more _ label _ before own after later _ _ hn hb hv ha hl =>
    rcases List.mem_cons.1 hm with hm | hm
    · cases hm
      exact ⟨label ++ before, own, after ++ 0x2C :: later, by simp, by rwa [List.length_append, ← Nat.add_assoc]⟩
    · obtain ⟨pre, mine, post, rfl, hmine⟩ := member_text hl hm
      refine ⟨label ++ (before ++ (own ++ after)) ++ 0x2C :: pre, mine, post, by simp, ?_⟩
      have hoffset : start + (label ++ (before ++ (own ++ after)) ++ 0x2C :: pre).length =
          start + (label ++ (before ++ (own ++ after))).length + 1 + pre.length := by
        simp only [List.length_append, List.length_cons]
        omega
      rwa [hoffset]

/-- every primitive of a node stands in the node's text at the range it carries -/
theorem leaf_holds {node : JsonNode N} {v : Primitive N} {first stop : ℕ} (hl : node.Leaf v first stop) :
    ∀ {start : ℕ} {text : List ℕ}, ValueText round start text node → Holds round start text v first stop := by
  induction hl with
  | here v first stop =>
    intro start text h
    exact primitive_holds h
  | element hm _ ih =>
    intro start text h
    cases h with
    | emptyArray => cases hm
    | array _ hels =>
      obtain ⟨before, own, after, rfl, hv⟩ := element_text hels hm
      exact Holds.within [0x5B] [0x5D] ((ih hv).within before after)
  | member hm _ ih =>
    intro start text h
    cases h with
    | emptyObject => cases hm
    | object _ hmems =>
      obtain ⟨before, own, after, rfl, hv⟩ := member_text hmems hm
      exact Holds.within [0x7B] [0x7D] ((ih hv).within before after)

/-- **The parser is the grammar.** `parse` makes a node exactly of a JSON text of that node in which no value stands
in more than 128 arrays and objects. Every primitive of the node carries the range of its own text, no white space
included, and that text parses to the same primitive. -/
theorem parse_eq_ok (round : Bool → ℚ → N) (input : List ℕ) (node : JsonNode N) :
    (parse round input = .ok node ↔ JsonText round input node ∧ node.nesting ≤ depthLimit) ∧
      (parse round input = .ok node → ∀ v first stop, node.Leaf v first stop →
        first < stop ∧ stop ≤ input.length ∧
          parse round ((input.drop first).take (stop - first)) = .ok (.primitive v 0 (stop - first))) := by
  refine ⟨parse_iff input node, fun h v first stop hl => ?_⟩
  obtain ⟨⟨before, text, after, rfl, hb, hv, ha⟩, -⟩ := (parse_iff input node).1 h
  have hv' : ValueText round (0 + before.length) text node := by rwa [Nat.zero_add]
  obtain ⟨pre, own, post, htext, hf, hs, hown⟩ := (leaf_holds hl hv').within before after
  rw [Nat.zero_add] at hf
  have hslice : ((before ++ (text ++ after)).drop first).take (stop - first) = own := by
    rw [htext, hf, List.drop_left, hs, hf, Nat.add_sub_cancel_left, List.take_left]
  obtain ⟨unit, later, hhead, -⟩ := valueText_head hown
  have hpos : 0 < own.length := by rw [hhead]; exact Nat.succ_pos _
  refine ⟨by omega, ?_, ?_⟩
  · rw [htext]
    simp only [List.length_append]
    omega
  · rw [hslice]
    refine (parse_iff own _).2 ⟨⟨[], own, [], by simp, by simp [Blank], ?_, by simp [Blank]⟩, ?_⟩
    · have hl : stop - first = own.length := by omega
      rwa [hl]
    · rw [JsonNode.nesting]
      exact Nat.zero_le _

/-- one string in an array: its range is the three units with the quotes -/
theorem parse_eq_ok_string :
    JsonText Prod.mk [0x5B, 0x22, 0x61, 0x22, 0x5D] (.array [.primitive (.string [0x61]) 1 4]) ∧
      parse Prod.mk [0x22, 0x61, 0x22] = .ok (.primitive (.string [0x61]) 0 3) := by
  have h := parse_eq_ok Prod.mk [0x5B, 0x22, 0x61, 0x22, 0x5D] (.array [.primitive (.string [0x61]) 1 4])
  have hparse : parse Prod.mk [0x5B, 0x22, 0x61, 0x22, 0x5D] = .ok (.array [.primitive (.string [0x61]) 1 4]) := rfl
  exact ⟨(h.1.1 hparse).1, (h.2 hparse _ 1 4 (.element List.mem_cons_self (.here _ 1 4))).2.2⟩

end Values

end Render.Js.Json
