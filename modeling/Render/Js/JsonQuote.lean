/-
`JSON.stringify`'s text and the parser: `json_quote`, `json_wrap`, and the serialization of arrays and objects.

The quote copies a paired surrogate, writes a lone one and a control unit as an escape, and leaves every other unit. A
container writes its members on one line, or with a gap on lines of their own, indented by the gaps around it. The
text is a derivation of the JSON grammar with the same tree (`serialize_text`), so what the parser makes of it follows
from the completeness of the parser and not from its body.

Model: a `Tree` is what is serialized, without numbers; the members of an object stand in the order the keys are
enumerated, and their keys need not even be distinct. `serialize` has the gap and the indentation of the writer as
arguments; the writer's stack against cycles has nothing to find in a tree.

- `parse_serialize`: parsing what is written for a tree gives the tree back; a quoted string reads as itself, holds no
  control unit and no unpaired surrogate.
-/
import Render.Dom.Utf16
import Render.Js.JsonParse

namespace Render.Js.Json

/-! ## Quoting -/

/-- the escapes of one letter that `json_quote` writes -/
def shortEscape (unit : ℕ) : Option (List ℕ) :=
  if unit = 0x22 then some [0x5C, 0x22]
  else if unit = 0x5C then some [0x5C, 0x5C]
  else if unit = 0x08 then some [0x5C, 0x62]
  else if unit = 0x0C then some [0x5C, 0x66]
  else if unit = 0x0A then some [0x5C, 0x6E]
  else if unit = 0x0D then some [0x5C, 0x72]
  else if unit = 0x09 then some [0x5C, 0x74]
  else none

/-- a hexadecimal digit in lower case -/
def hexLetter (digit : ℕ) : ℕ := if digit < 10 then 0x30 + digit else 0x57 + digit

/-- `\u` and four digits -/
def unicodeEscape (unit : ℕ) : List ℕ :=
  [0x5C, 0x75, hexLetter (unit / 0x1000), hexLetter (unit / 0x100 % 0x10), hexLetter (unit / 0x10 % 0x10),
    hexLetter (unit % 0x10)]

/-- a unit by itself -/
def quoteUnit (unit : ℕ) : List ℕ :=
  match shortEscape unit with
  | some escape => escape
  | none => if unit < 0x20 ∨ isLead unit ∨ isTrail unit then unicodeEscape unit else [unit]

/-- the loop of `json_quote`: a pair of surrogates is copied -/
def quoteUnits : List ℕ → List ℕ
  | [] => []
  | [unit] => quoteUnit unit
  | unit :: next :: later =>
    if shortEscape unit = none ∧ isLead unit ∧ isTrail next then unit :: next :: quoteUnits later
    else quoteUnit unit ++ quoteUnits (next :: later)

/-- `json_quote` -/
def jsonQuote (units : List ℕ) : List ℕ := 0x22 :: (quoteUnits units ++ [0x22])

/-! ## Trees and their text -/

/-- a value without numbers -/
inductive Tree where
  | null
  | boolean (value : Bool)
  | string (units : List ℕ)
  | array (elements : List Tree)
  | object (members : List (List ℕ × Tree))

/-- members one after another, with a separator between -/
def joined (separator : List ℕ) : List (List ℕ) → List ℕ
  | [] => []
  | [member] => member
  | member :: members => member ++ (separator ++ joined separator members)

/-- `json_wrap` -/
def jsonWrap (members : List (List ℕ)) (opening closing : ℕ) (gap indent stepback : List ℕ) : List ℕ :=
  if members = [] then [opening, closing]
  else if gap = [] then opening :: (joined [0x2C] members ++ [closing])
  else opening :: 0x0A :: (joined [0x2C, 0x0A] (members.map (indent ++ ·)) ++ (0x0A :: (stepback ++ [closing])))

mutual

/-- `json_serialize_property`, `json_serialize_array` and `json_serialize_object`, with the writer's gap and
indentation -/
def serialize (gap indent : List ℕ) : Tree → List ℕ
  | .null => nullWord
  | .boolean value => if value then trueWord else falseWord
  | .string units => jsonQuote units
  | .array elements => jsonWrap (serializeElements gap (indent ++ gap) elements) 0x5B 0x5D gap (indent ++ gap) indent
  | .object members => jsonWrap (serializeMembers gap (indent ++ gap) members) 0x7B 0x7D gap (indent ++ gap) indent

def serializeElements (gap indent : List ℕ) : List Tree → List (List ℕ)
  | [] => []
  | tree :: trees => serialize gap indent tree :: serializeElements gap indent trees

def serializeMembers (gap indent : List ℕ) : List (List ℕ × Tree) → List (List ℕ)
  | [] => []
  | (key, tree) :: trees =>
    (jsonQuote key ++ (0x3A :: ((if gap = [] then [] else [0x20]) ++ serialize gap indent tree))) ::
      serializeMembers gap indent trees

end

mutual

/-- how many arrays and objects of the tree the deepest value in it stands in -/
def Tree.nesting : Tree → ℕ
  | .array elements => treesNesting elements
  | .object members => memberTreesNesting members
  | _ => 0

def treesNesting : List Tree → ℕ
  | [] => 0
  | tree :: trees => max (tree.nesting + 1) (treesNesting trees)

def memberTreesNesting : List (List ℕ × Tree) → ℕ
  | [] => 0
  | (_, tree) :: trees => max (tree.nesting + 1) (memberTreesNesting trees)

end

section Nodes

variable {N : Type}

/-- the tree of a primitive, if it is no number -/
def Primitive.tree : Primitive N → Option Tree
  | .null => some .null
  | .boolean value => some (.boolean value)
  | .string units => some (.string units)
  | .number _ => none

mutual

/-- the tree of a parsed node, without the ranges -/
def JsonNode.tree : JsonNode N → Option Tree
  | .primitive value _ _ => value.tree
  | .array nodes => (elementTrees nodes).map .array
  | .object nodes => (memberTrees nodes).map .object

def elementTrees : List (JsonNode N) → Option (List Tree)
  | [] => some []
  | node :: nodes => node.tree.bind fun tree => (elementTrees nodes).map (tree :: ·)

def memberTrees : List (List ℕ × JsonNode N) → Option (List (List ℕ × Tree))
  | [] => some []
  | (key, node) :: nodes => node.tree.bind fun tree => (memberTrees nodes).map ((key, tree) :: ·)

end

end Nodes

/-! ## A quoted string reads as itself -/

theorem hexDigit_hexLetter {digit : ℕ} (h : digit < 16) : hexDigit (hexLetter digit) = some digit := by
  unfold hexLetter hexDigit
  split_ifs <;> first | omega | (congr 1; omega)

theorem unicodeEscape_text {unit : ℕ} (h : unit < 0x10000) : CharacterText (unicodeEscape unit) unit := by
  have hc := CharacterText.unicode (hexDigit_hexLetter (by omega : unit / 0x1000 < 16))
    (hexDigit_hexLetter (by omega : unit / 0x100 % 0x10 < 16)) (hexDigit_hexLetter (by omega : unit / 0x10 % 0x10 < 16))
    (hexDigit_hexLetter (by omega : unit % 0x10 < 16))
  have hu : unit / 0x1000 * 0x1000 + unit / 0x100 % 0x10 * 0x100 + unit / 0x10 % 0x10 * 0x10 + unit % 0x10 = unit := by
    omega
  rwa [hu] at hc

/-- the short escapes are escapes of the grammar -/
theorem shortEscape_text {unit : ℕ} {escape : List ℕ} (h : shortEscape unit = some escape) :
    CharacterText escape unit := by
  unfold shortEscape at h
  split_ifs at h with h1 h2 h3 h4 h5 h6 h7
  all_goals
    cases h
    subst unit
    exact .escape (by decide)

theorem shortEscape_none {unit : ℕ} (h : shortEscape unit = none) : unit ≠ 0x22 ∧ unit ≠ 0x5C := by
  unfold shortEscape at h
  split_ifs at h with h1 h2
  exact ⟨h1, h2⟩

theorem surrogate_bounds {unit : ℕ} (h : isLead unit ∨ isTrail unit) : 0xD800 ≤ unit ∧ unit < 0xE000 := by
  simp only [isLead, isTrail, Bool.and_eq_true, decide_eq_true_eq] at h
  omega

theorem quoteUnit_text (unit : ℕ) : CharacterText (quoteUnit unit) unit := by
  unfold quoteUnit
  cases hs : shortEscape unit with
  | some escape => exact shortEscape_text hs
  | none =>
    dsimp only
    split_ifs with hu
    · refine unicodeEscape_text ?_
      rcases hu with hu | hu
      · omega
      · have := surrogate_bounds hu
        omega
    · exact .plain (shortEscape_none hs).1 (shortEscape_none hs).2 (by omega)

theorem quoteUnits_text (units : List ℕ) : CharactersText (quoteUnits units) units := by
  fun_induction quoteUnits units with
  | case1 => exact .nil
  | case2 unit => simpa using CharactersText.cons (quoteUnit_text unit) .nil
  | case3 unit next later hp ih =>
    -- both surrogates of a pair stand for themselves
    have hl := surrogate_bounds (.inl hp.2.1)
    have ht := surrogate_bounds (.inr hp.2.2)
    exact .cons (.plain (by omega) (by omega) (by omega)) (.cons (.plain (by omega) (by omega) (by omega)) ih)
  | case4 unit next later hp ih => exact .cons (quoteUnit_text unit) ih

theorem jsonQuote_text (units : List ℕ) : StringText (jsonQuote units) units := ⟨_, rfl, quoteUnits_text units⟩

/-! ## What a quoted string holds -/

/-- every lead surrogate is followed by a trail one, and every trail one follows a lead one -/
def paired : List ℕ → Bool
  | [] => true
  | [unit] => !isLead unit && !isTrail unit
  | unit :: next :: later =>
    if isLead unit && isTrail next then paired later else !isLead unit && !isTrail unit && paired (next :: later)

/-- a unit that is printed: no control unit and no surrogate -/
def Printed (unit : ℕ) : Prop := 0x20 ≤ unit ∧ isLead unit = false ∧ isTrail unit = false

theorem paired_cons {unit : ℕ} (h : Printed unit) (later : List ℕ) : paired (unit :: later) = paired later := by
  cases later with
  | nil => simp [paired, h.2.1, h.2.2]
  | cons next more => simp [paired, h.2.1, h.2.2]

theorem paired_append {units : List ℕ} (h : ∀ unit ∈ units, Printed unit) (later : List ℕ) :
    paired (units ++ later) = paired later := by
  induction units with
  | nil => rfl
  | cons unit units ih =>
    rw [List.cons_append, paired_cons (h unit List.mem_cons_self)]
    exact ih fun other ho => h other (List.mem_cons_of_mem _ ho)

theorem printed_ascii {unit : ℕ} (h : 0x20 ≤ unit ∧ unit < 0x80) : Printed unit := by
  refine ⟨h.1, ?_, ?_⟩
  · simp only [isLead, Bool.and_eq_false_iff, decide_eq_false_iff_not]
    omega
  · simp only [isTrail, Bool.and_eq_false_iff, decide_eq_false_iff_not]
    omega

theorem hexLetter_printed {digit : ℕ} (h : digit < 16) : Printed (hexLetter digit) := by
  apply printed_ascii
  unfold hexLetter
  split_ifs <;> omega

theorem quoteUnit_printed (unit : ℕ) : ∀ other ∈ quoteUnit unit, Printed other := by
  unfold quoteUnit
  cases hs : shortEscape unit with
  | some escape =>
    unfold shortEscape at hs
    split_ifs at hs
    all_goals
      cases hs
      intro other ho
      apply printed_ascii
      simp only [List.mem_cons, List.not_mem_nil, or_false] at ho
      omega
  | none =>
    dsimp only
    split_ifs with hu
    · have hlt : unit < 0x10000 := by
        rcases hu with hu | hu
        · omega
        · have := surrogate_bounds hu
          omega
      intro other ho
      simp only [unicodeEscape, List.mem_cons, List.not_mem_nil, or_false] at ho
      rcases ho with rfl | rfl | rfl | rfl | rfl | rfl
      · exact printed_ascii (by omega)
      · exact printed_ascii (by omega)
      · exact hexLetter_printed (by omega)
      · exact hexLetter_printed (by omega)
      · exact hexLetter_printed (by omega)
      · exact hexLetter_printed (by omega)
    · intro other ho
      cases List.mem_singleton.1 ho
      simp only [not_or, Bool.not_eq_true] at hu
      exact ⟨by omega, hu.2.1, hu.2.2⟩

theorem quoteUnits_paired (units : List ℕ) : paired (quoteUnits units ++ [0x22]) = true := by
  fun_induction quoteUnits units with
  | case1 => decide
  | case2 unit =>
    rw [paired_append (quoteUnit_printed unit)]
    decide
  | case3 unit next later hp ih =>
    rw [List.cons_append, List.cons_append, paired, if_pos (by simp [hp.2.1, hp.2.2])]
    exact ih
  | case4 unit next later hp ih =>
    rw [List.append_assoc, paired_append (quoteUnit_printed unit)]
    exact ih

theorem quoteUnits_control (units : List ℕ) : ∀ unit ∈ quoteUnits units, 0x20 ≤ unit := by
  fun_induction quoteUnits units with
  | case1 => simp
  | case2 unit => exact fun other ho => (quoteUnit_printed unit other ho).1
  | case3 unit next later hp ih =>
    have hl := surrogate_bounds (.inl hp.2.1)
    have ht := surrogate_bounds (.inr hp.2.2)
    rintro other (_ | ⟨_, _ | ⟨_, ho⟩⟩)
    · omega
    · omega
    · exact ih other ho
  | case4 unit next later hp ih =>
    intro other ho
    rcases List.mem_append.1 ho with ho | ho
    · exact (quoteUnit_printed unit other ho).1
    · exact ih other ho

theorem jsonQuote_paired (units : List ℕ) : paired (jsonQuote units) = true := by
  rw [jsonQuote, paired_cons (printed_ascii (by omega))]
  exact quoteUnits_paired units

theorem jsonQuote_control (units : List ℕ) : ∀ unit ∈ jsonQuote units, 0x20 ≤ unit := by
  intro unit hu
  simp only [jsonQuote, List.mem_cons, List.mem_append, List.not_mem_nil, or_false] at hu
  rcases hu with rfl | hu | rfl
  · decide
  · exact quoteUnits_control units unit hu
  · decide

/-! ## The text of a tree is a text of the grammar -/

/-- members as they stand between the brackets: each behind `before`, the last one before `after` -/
def laidOut (before after : List ℕ) : List (List ℕ) → List ℕ
  | [] => []
  | [member] => before ++ (member ++ after)
  | member :: members => before ++ (member ++ []) ++ 0x2C :: laidOut before after members

theorem joined_line {members : List (List ℕ)} (h : members ≠ []) : joined [0x2C] members = laidOut [] [] members := by
  fun_induction joined [0x2C] members with
  | case1 => exact absurd rfl h
  | case2 member => simp [laidOut]
  | case3 member members hne ih => simp [laidOut, ih hne]

theorem joined_lines (indent stepback : List ℕ) {members : List (List ℕ)} (h : members ≠ []) :
    0x0A :: (joined [0x2C, 0x0A] (members.map (indent ++ ·)) ++ (0x0A :: stepback)) =
      laidOut (0x0A :: indent) (0x0A :: stepback) members := by
  induction members with
  | nil => exact absurd rfl h
  | cons member members ih =>
    cases members with
    | nil => simp [joined, laidOut]
    | cons next later =>
      have hi := ih (List.cons_ne_nil _ _)
      rw [laidOut, ← hi]
      · simp [joined]
      · exact List.cons_ne_nil _ _

/-- a container with members in it, whatever the gap -/
theorem jsonWrap_eq {members : List (List ℕ)} (opening closing : ℕ) (gap indent stepback : List ℕ) (h : members ≠ []) :
    jsonWrap members opening closing gap indent stepback =
      opening :: (laidOut (if gap = [] then [] else 0x0A :: indent) (if gap = [] then [] else 0x0A :: stepback)
        members ++ [closing]) := by
  rw [jsonWrap, if_neg h]
  split_ifs with hg
  · rw [joined_line h]
  · rw [← joined_lines indent stepback h]
    simp

theorem blank_line {gap indent : List ℕ} (h : Blank indent) : Blank (if gap = [] then [] else 0x0A :: indent) := by
  split_ifs
  · simp [Blank]
  · rintro unit (_ | ⟨_, hu⟩)
    · decide
    · exact h unit hu

section Derivations

variable {N : Type} (round : Bool → ℚ → N) {gap : List ℕ}

/-- the tree is written as a text of the grammar, whatever the indentation and the offset -/
def Writes (gap : List ℕ) (tree : Tree) : Prop :=
  ∀ indent, Blank indent → ∀ start, ∃ node, ValueText round start (serialize gap indent tree) node ∧
    node.tree = some tree ∧ node.nesting = tree.nesting

/-- elements laid out are elements of the grammar -/
theorem elements_text {trees : List Tree} (hne : trees ≠ []) (hw : ∀ tree ∈ trees, Writes round gap tree)
    {indent before after : List ℕ} (hi : Blank indent) (hb : Blank before) (ha : Blank after) (start : ℕ) :
    ∃ nodes, ElementsText round start (laidOut before after (serializeElements gap indent trees)) nodes ∧
      elementTrees nodes = some trees ∧ elementsNesting nodes = treesNesting trees := by
  induction trees generalizing start with
  | nil => exact absurd rfl hne
  | cons tree trees ih =>
    obtain ⟨node, hv, htree, hn⟩ := hw tree List.mem_cons_self indent hi (start + before.length)
    cases trees with
    | nil => exact ⟨[node], .one hb hv ha, by simp [elementTrees, htree], by simp [elementsNesting, treesNesting, hn]⟩
    | cons next later =>
      obtain ⟨nodes, hl, htrees, hns⟩ := ih (List.cons_ne_nil _ _)
        (fun other ho => hw other (List.mem_cons_of_mem _ ho))
        (start + (before ++ (serialize gap indent tree ++ [])).length + 1)
      refine ⟨node :: nodes, .more hb hv (by simp [Blank]) hl, by simp [elementTrees, htree, htrees], ?_⟩
      rw [elementsNesting, treesNesting, hn, hns]

/-- members laid out are members of the grammar -/
theorem members_text {trees : List (List ℕ × Tree)} (hne : trees ≠ [])
    (hw : ∀ key tree, (key, tree) ∈ trees → Writes round gap tree) {indent before after : List ℕ} (hi : Blank indent)
    (hb : Blank before) (ha : Blank after) (start : ℕ) :
    ∃ nodes, MembersText round start (laidOut before after (serializeMembers gap indent trees)) nodes ∧
      memberTrees nodes = some trees ∧ membersNesting nodes = memberTreesNesting trees := by
  induction trees generalizing start with
  | nil => exact absurd rfl hne
  | cons entry trees ih =>
    obtain ⟨key, tree⟩ := entry
    have hspace : Blank (if gap = [] then [] else [0x20]) := by
      split_ifs
      · simp [Blank]
      · simp [Blank, isBlank]
    have hname : NameText (before ++ (jsonQuote key ++ [0x3A])) key :=
      ⟨before, jsonQuote key, [], rfl, hb, jsonQuote_text key, by simp [Blank]⟩
    obtain ⟨node, hv, htree, hn⟩ := hw key tree List.mem_cons_self indent hi
      (start + (before ++ (jsonQuote key ++ [0x3A])).length + (if gap = [] then [] else [0x20]).length)
    cases trees with
    | nil =>
      refine ⟨[(key, node)], ?_, by simp [memberTrees, htree], by simp [membersNesting, memberTreesNesting, hn]⟩
      have := MembersText.one hname hspace hv ha
      simpa [laidOut, serializeMembers] using this
    | cons next later =>
      obtain ⟨nodes, hl, htrees, hns⟩ := ih (List.cons_ne_nil _ _)
        (fun key other ho => hw key other (List.mem_cons_of_mem _ ho))
        (start + (before ++ (jsonQuote key ++ [0x3A]) ++
          ((if gap = [] then [] else [0x20]) ++ (serialize gap indent tree ++ []))).length + 1)
      have := MembersText.more hname hspace hv (by simp [Blank]) hl
      refine ⟨(key, node) :: nodes, ?_, by simp [memberTrees, htree, htrees], ?_⟩
      · simpa [laidOut, serializeMembers] using this
      · rw [membersNesting, memberTreesNesting, hn, hns]

mutual

/-- what is serialized is a derivation, with the tree it came from -/
theorem serialize_writes (hg : Blank gap) (tree : Tree) : Writes round gap tree := by
  intro indent hi start
  match tree with
  | .null => exact ⟨_, .null start, rfl, rfl⟩
  | .boolean true => exact ⟨_, .true start, rfl, rfl⟩
  | .boolean false => exact ⟨_, .false start, rfl, rfl⟩
  | .string units => exact ⟨_, .string start (jsonQuote_text units), rfl, rfl⟩
  | .array [] => exact ⟨.array [], .emptyArray start (List.forall_mem_nil _), rfl, rfl⟩
  | .array (first :: later) =>
    obtain ⟨nodes, ht, htree, hn⟩ := elements_text round (List.cons_ne_nil first later)
      (elements_write hg (first :: later)) (hi.append hg) (blank_line (hi.append hg)) (blank_line hi) (start + 1)
    refine ⟨.array nodes, ?_, ?_, ?_⟩
    · rw [serialize, jsonWrap_eq _ _ _ _ _ (by simp [serializeElements])]
      exact .array start ht
    · rw [JsonNode.tree, htree]
      rfl
    · rw [JsonNode.nesting, Tree.nesting, hn]
  | .object [] => exact ⟨.object [], .emptyObject start (List.forall_mem_nil _), rfl, rfl⟩
  | .object (first :: later) =>
    obtain ⟨nodes, ht, htree, hn⟩ := members_text round (List.cons_ne_nil first later)
      (members_write hg (first :: later)) (hi.append hg) (blank_line (hi.append hg)) (blank_line hi) (start + 1)
    refine ⟨.object nodes, ?_, ?_, ?_⟩
    · rw [serialize, jsonWrap_eq _ _ _ _ _ (by simp [serializeMembers])]
      exact .object start ht
    · rw [JsonNode.tree, htree]
      rfl
    · rw [JsonNode.nesting, Tree.nesting, hn]

theorem elements_write (hg : Blank gap) (trees : List Tree) : ∀ tree ∈ trees, Writes round gap tree := by
  intro tree hm
  match trees with
  | [] => cases hm
  | first :: later =>
    rcases List.mem_cons.1 hm with he | hm
    · rw [he]
      exact serialize_writes hg first
    · exact elements_write hg later tree hm

theorem members_write (hg : Blank gap) (trees : List (List ℕ × Tree)) :
    ∀ key tree, (key, tree) ∈ trees → Writes round gap tree := by
  intro key tree hm
  match trees with
  | [] => cases hm
  | (name, first) :: later =>
    rcases List.mem_cons.1 hm with he | hm
    · rw [(Prod.mk.inj he).2]
      exact serialize_writes hg first
    · exact members_write hg later key tree hm

end

/-- **What is written parses back.** For every tree nested within the parser's limit and every gap of white space, the
text written for the tree parses to a node of the same tree. Every quoted string is read as the units it was made of,
and holds no control unit and no unpaired surrogate. -/
theorem parse_serialize :
    (∀ gap tree, Blank gap → tree.nesting ≤ depthLimit →
      ∃ node, parse round (serialize gap [] tree) = .ok node ∧ node.tree = some tree) ∧
    ∀ units, string ⟨0, jsonQuote units⟩ = .ok (units, ⟨(jsonQuote units).length, []⟩) ∧
      paired (jsonQuote units) = true ∧ ∀ unit ∈ jsonQuote units, 0x20 ≤ unit := by
  refine ⟨fun gap tree hg hn => ?_, fun units => ⟨?_, jsonQuote_paired units, jsonQuote_control units⟩⟩
  · obtain ⟨node, hv, htree, hnode⟩ := serialize_writes round hg tree [] (List.forall_mem_nil _) 0
    refine ⟨node, (parse_iff _ node).2 ⟨⟨[], serialize gap [] tree, [], by simp, ?_, hv, ?_⟩, hnode ▸ hn⟩, htree⟩
    · exact List.forall_mem_nil _
    · exact List.forall_mem_nil _
  · exact string_complete ⟨by simp, by simp⟩ (jsonQuote_text units)

/-- an array of a lone surrogate, written with a gap of one space -/
theorem parse_serialize_surrogate :
    (∃ node : JsonNode (Bool × ℚ), parse Prod.mk (serialize [0x20] [] (.array [.string [0xD800]])) = .ok node ∧
      node.tree = some (.array [.string [0xD800]])) ∧
    serialize [0x20] [] (.array [.string [0xD800]]) =
      [0x5B, 0x0A, 0x20, 0x22, 0x5C, 0x75, 0x64, 0x38, 0x30, 0x30, 0x22, 0x0A, 0x5D] :=
  ⟨(parse_serialize Prod.mk).1 [0x20] (.array [.string [0xD800]]) (by simp [Blank, isBlank]) (by decide), by decide⟩

end Derivations

end Render.Js.Json
