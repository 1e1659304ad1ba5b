/-
The path of a URL, as the URL Standard's parser reads it. Nothing here is about this repository.

The basic URL parser is a machine that reads one character after another. What it does before the path (the scheme, the
credentials, the host, the port) is a parameter: states of a type of its own that end in a `Head`, the text of all that.
From there on the machine is written out: path state with its dot segments, the opaque path, the query, the fragment.

`Settled` is a text after which the machine has left the front, so that nothing that follows can reach the host.
`follow` gives the segments a text leads to from a directory. A text that settles as a directory and is its own normal
form begins the normal form of a longer text exactly if the longer text's segments end in that directory
(`begins_iff`).
-/
import Render.Net.Text

namespace Render.Net.UrlPaths

/-! ## The machine -/

/-- what is settled before the path -/
structure Head where
  text : Chars
  special : Bool
  file : Bool
  authority : Bool
deriving DecidableEq

/-- what may follow a path, and a path that is one piece -/
inductive Part where
  | path
  | opaquePath
  | query (special : Bool)
  | fragment
deriving DecidableEq

inductive State (F : Type) where
  | front (state : F)
  | path (head : Head) (segments : List Chars) (buffer : Chars)
  | tail (part : Part) (text : Chars)
  | failure

/-- what a character does in front of the path: `again` reads it once more as the path's first -/
inductive Move (F : Type) where
  | stay (state : F)
  | path (head : Head) (again : Bool)
  | tail (part : Part) (text : Chars)
  | failure

/-- the front of the parser, and the percent-encoding of each part -/
structure Machine (F : Type) where
  start : F
  step : F → Char → Move F
  finish : F → Option Chars
  encode : Part → Char → Chars
  /-- a path's character is not encoded to what ends a segment -/
  encode_path : ∀ c, c ≠ '/' → c ≠ '?' → c ≠ '#' → ∀ d ∈ encode .path c, d ≠ '/' ∧ d ≠ '?' ∧ d ≠ '#'

/-! ## Segments -/

def isSingleDot (segment : Chars) : Bool :=
  segment.toAsciiLowercase = ".".toList || segment.toAsciiLowercase = "%2e".toList

def isDoubleDot (segment : Chars) : Bool :=
  segment.toAsciiLowercase = "..".toList || segment.toAsciiLowercase = ".%2e".toList ||
    segment.toAsciiLowercase = "%2e.".toList || segment.toAsciiLowercase = "%2e%2e".toList

/-- a letter and a colon, or a bar in its place -/
def isDrive : Chars → Bool
  | [letter, mark] => letter.isAlpha && (mark = ':' || mark = '|')
  | _ => false

/-- a drive letter with a colon, the only segment -/
def isOnlyDrive : List Chars → Bool
  | [[letter, ':']] => letter.isAlpha
  | _ => false

/-- the path without its last segment; a file's drive letter stays -/
def shorten (head : Head) (segments : List Chars) : List Chars :=
  if head.file && isOnlyDrive segments then segments else segments.dropLast

/-- a file's first segment, if it is a drive letter, is written with a colon -/
def written (head : Head) (segments : List Chars) (buffer : Chars) : Chars :=
  if head.file && segments.isEmpty && isDrive buffer then buffer.take 1 ++ [':'] else buffer

/-- the segments after a separator -/
def close (head : Head) (segments : List Chars) (buffer : Chars) : List Chars :=
  if isDoubleDot buffer then shorten head segments
  else if isSingleDot buffer then segments
  else segments ++ [written head segments buffer]

/-- the segments at the end of the path: a dot segment leaves an empty one -/
def closeLast (head : Head) (segments : List Chars) (buffer : Chars) : List Chars :=
  if isDoubleDot buffer then shorten head segments ++ [[]]
  else if isSingleDot buffer then segments ++ [[]]
  else segments ++ [written head segments buffer]

/-- without an authority, a path that would look like one is serialized with a dot in front -/
def lead (head : Head) (segments : List Chars) : List Chars :=
  if !head.authority && decide (1 < segments.length) && decide (segments.head? = some []) then [['.']] else []

/-- each segment behind its separator -/
def flat (segments : List Chars) : Chars := segments.flatMap fun segment => '/' :: segment

def pathText (head : Head) (segments : List Chars) : Chars := head.text ++ flat (lead head segments ++ segments)

def isSeparator (head : Head) (c : Char) : Bool := c = '/' || head.special && c = '\u005c'

namespace Machine

variable {F : Type} (machine : Machine F)

def pathStep (head : Head) (segments : List Chars) (buffer : Chars) (c : Char) : State F :=
  if isSeparator head c then .path head (close head segments buffer) []
  else if c = '?' then .tail (.query head.special) (pathText head (closeLast head segments buffer) ++ ['?'])
  else if c = '#' then .tail .fragment (pathText head (closeLast head segments buffer) ++ ['#'])
  else .path head segments (buffer ++ machine.encode .path c)

def tailStep (part : Part) (text : Chars) (c : Char) : State F :=
  if c = '?' ∧ part = .opaquePath then .tail (.query false) (text ++ ['?'])
  else if c = '#' ∧ part ≠ .fragment then .tail .fragment (text ++ ['#'])
  else .tail part (text ++ machine.encode part c)

/-- what a move in front of the path leads to -/
def moved (c : Char) : Move F → State F
  | .stay state => .front state
  | .path head again => if again then machine.pathStep head [] [] c else .path head [] []
  | .tail part text => .tail part text
  | .failure => .failure

def next : State F → Char → State F
  | .front state, c => machine.moved c (machine.step state c)
  | .path head segments buffer, c => machine.pathStep head segments buffer c
  | .tail part text, c => machine.tailStep part text c
  | .failure, _ => .failure

def run (state : State F) (text : Chars) : State F := text.foldl machine.next state

def result : State F → Option Chars
  | .front state => machine.finish state
  | .path head segments buffer => some (pathText head (closeLast head segments buffer))
  | .tail _ text => some text
  | .failure => none

/-- a C0 control or a space -/
def isEdge (c : Char) : Bool := c.toNat ≤ 0x20

/-- a tab or a line break -/
def isDropped (c : Char) : Bool := c = '\u0009' || c = '\u000a' || c = '\u000d'

/-- white space at the ends, tabs and line breaks are not read -/
def clean (text : Chars) : Chars := (text.trimMatches isEdge).filter fun c => !isDropped c

/-- the text after the machine has read it -/
def reached (text : Chars) : State F := machine.run (.front machine.start) (clean text)

/-- the serialized URL of a text -/
def parse (text : Chars) : Option Chars := machine.result (machine.reached text)

/-- the machine has left the front: nothing that follows can reach the host -/
def Settled (text : Chars) : Prop := ∀ state, machine.reached text ≠ .front state

/-- the segments a text leads to, from the segments and the buffer before it -/
def follow (head : Head) : List Chars → Chars → Chars → List Chars
  | segments, buffer, [] => closeLast head segments buffer
  | segments, buffer, c :: rest =>
    if isSeparator head c then follow head (close head segments buffer) [] rest
    else if c = '?' ∨ c = '#' then closeLast head segments buffer
    else follow head segments (buffer ++ machine.encode .path c) rest

/-- what is read of a text that follows another one -/
def cleanEnd (text : Chars) : Chars := (text.reverse.dropWhile isEdge).reverse.filter fun c => !isDropped c

/-! ## The path state keeps its segments clean -/

/-- no character that ends a segment -/
def CleanSegment (segment : Chars) : Prop := ∀ c ∈ segment, c ≠ '/' ∧ c ≠ '?' ∧ c ≠ '#'

/-- segments that serialize to themselves -/
def CleanPath (segments : List Chars) : Prop :=
  ∀ segment ∈ segments, CleanSegment segment ∧ isSingleDot segment = false

theorem cleanPath_append {segments : List Chars} (h : CleanPath segments) {segment : Chars}
    (hs : CleanSegment segment) (hd : isSingleDot segment = false) : CleanPath (segments ++ [segment]) := by
  intro other ho
  rcases List.mem_append.1 ho with ho | ho
  · exact h other ho
  · cases List.mem_singleton.1 ho
    exact ⟨hs, hd⟩

theorem shorten_clean (head : Head) {segments : List Chars} (h : CleanPath segments) :
    CleanPath (shorten head segments) := by
  unfold shorten
  split_ifs
  · exact h
  · exact fun segment hs => h segment (List.mem_of_mem_dropLast hs)

theorem written_clean (head : Head) (segments : List Chars) {buffer : Chars} (hb : CleanSegment buffer)
    (hd : isSingleDot buffer = false) :
    CleanSegment (written head segments buffer) ∧ isSingleDot (written head segments buffer) = false := by
  unfold written
  split_ifs with h
  · rw [Bool.and_eq_true] at h
    cases buffer with
    | nil => cases h.2
    | cons letter rest =>
      refine ⟨?_, ?_⟩
      · intro c hc
        simp only [List.take_succ_cons, List.take_zero, List.cons_append, List.nil_append, List.mem_cons,
          List.not_mem_nil, or_false] at hc
        rcases hc with rfl | rfl
        · exact hb c List.mem_cons_self
        · decide
      · simp [isSingleDot, Chars.toAsciiLowercase]
  · exact ⟨hb, hd⟩

theorem close_clean (head : Head) {segments : List Chars} {buffer : Chars} (h : CleanPath segments)
    (hb : CleanSegment buffer) : CleanPath (close head segments buffer) := by
  unfold close
  split_ifs with h2 h1
  · exact shorten_clean head h
  · exact h
  · have hw := written_clean head segments hb (by simpa using h1)
    exact cleanPath_append h hw.1 hw.2

theorem closeLast_clean (head : Head) {segments : List Chars} {buffer : Chars} (h : CleanPath segments)
    (hb : CleanSegment buffer) : CleanPath (closeLast head segments buffer) := by
  have hnil : CleanSegment [] := fun c hc => absurd hc List.not_mem_nil
  unfold closeLast
  split_ifs with h2 h1
  · exact cleanPath_append (shorten_clean head h) hnil (by decide)
  · exact cleanPath_append h hnil (by decide)
  · have hw := written_clean head segments hb (by simpa using h1)
    exact cleanPath_append h hw.1 hw.2

theorem closeLast_ne_nil (head : Head) (segments : List Chars) (buffer : Chars) :
    closeLast head segments buffer ≠ [] := by
  unfold closeLast
  split_ifs <;> simp

/-- a character of a segment keeps the buffer clean -/
theorem encode_clean {head : Head} {buffer : Chars} (hb : CleanSegment buffer) {c : Char}
    (hs : isSeparator head c = false) (hq : c ≠ '?') (hf : c ≠ '#') :
    CleanSegment (buffer ++ machine.encode .path c) := by
  have hc : c ≠ '/' := by
    rintro rfl
    simp [isSeparator] at hs
  intro d hd
  rcases List.mem_append.1 hd with hd | hd
  · exact hb d hd
  · exact machine.encode_path c hc hq hf d hd

/-- in path state the segments and the buffer are clean -/
def Clean : State F → Prop
  | .path _ segments buffer => CleanPath segments ∧ CleanSegment buffer
  | _ => True

theorem clean_start (head : Head) : Clean (.path head [] [] : State F) :=
  ⟨List.forall_mem_nil _, List.forall_mem_nil _⟩

theorem pathStep_clean {head : Head} {segments : List Chars} {buffer : Chars} (c : Char)
    (h : CleanPath segments ∧ CleanSegment buffer) : Clean (machine.pathStep head segments buffer c) := by
  unfold pathStep
  split_ifs with hs hq hf
  · exact ⟨close_clean head h.1 h.2, List.forall_mem_nil _⟩
  · trivial
  · trivial
  · exact ⟨h.1, machine.encode_clean h.2 (by simpa using hs) hq hf⟩

theorem tailStep_eq (part : Part) (text : Chars) (c : Char) :
    ∃ part' more, machine.tailStep part text c = .tail part' (text ++ more) := by
  unfold tailStep
  split_ifs
  · exact ⟨_, _, rfl⟩
  · exact ⟨_, _, rfl⟩
  · exact ⟨_, _, rfl⟩

theorem next_clean {state : State F} (h : Clean state) (c : Char) : Clean (machine.next state c) := by
  cases state with
  | front state =>
    rw [next]
    cases machine.step state c with
    | stay state => trivial
    | path head again =>
      rw [moved]
      split_ifs
      · exact machine.pathStep_clean c (clean_start head : Clean (.path head [] [] : State F))
      · exact clean_start head
    | tail part text => trivial
    | failure => trivial
  | path head segments buffer => exact machine.pathStep_clean c h
  | tail part text =>
    obtain ⟨part', more, he⟩ := machine.tailStep_eq part text c
    rw [next, he]
    trivial
  | failure => trivial

theorem run_clean {state : State F} (h : Clean state) (text : Chars) : Clean (machine.run state text) := by
  induction text generalizing state with
  | nil => exact h
  | cons c rest ih => exact ih (machine.next_clean h c)

theorem follow_clean (head : Head) (text : Chars) : ∀ {segments : List Chars} {buffer : Chars},
    CleanPath segments → CleanSegment buffer → CleanPath (machine.follow head segments buffer text) := by
  induction text with
  | nil => exact fun h hb => closeLast_clean head h hb
  | cons c rest ih =>
    intro segments buffer h hb
    unfold follow
    split_ifs with hs hq
    · exact ih (close_clean head h hb) (List.forall_mem_nil _)
    · exact closeLast_clean head h hb
    · exact ih h (machine.encode_clean hb (by simpa using hs) (fun he => hq (.inl he)) fun he => hq (.inr he))

theorem follow_ne_nil (head : Head) (text : Chars) (segments : List Chars) (buffer : Chars) :
    machine.follow head segments buffer text ≠ [] := by
  induction text generalizing segments buffer with
  | nil => exact closeLast_ne_nil head segments buffer
  | cons c rest ih =>
    unfold follow
    split_ifs
    · exact ih _ _
    · exact closeLast_ne_nil head segments buffer
    · exact ih _ _

/-! ## What more text leads to -/

/-- behind the path, text is only added -/
theorem result_tail (part : Part) (text more : Chars) :
    ∃ added, machine.result (machine.run (.tail part text) more) = some (text ++ added) := by
  induction more generalizing part text with
  | nil => exact ⟨[], by simp [run, result]⟩
  | cons c rest ih =>
    obtain ⟨part', first, he⟩ := machine.tailStep_eq part text c
    obtain ⟨added, ha⟩ := ih part' (text ++ first)
    refine ⟨first ++ added, ?_⟩
    rw [run, List.foldl_cons, next, he, ← List.append_assoc]
    exact ha

/-- from the path, the segments are the ones the text leads to -/
theorem result_path (head : Head) (segments : List Chars) (buffer text : Chars) :
    ∃ added, machine.result (machine.run (.path head segments buffer) text) =
      some (pathText head (machine.follow head segments buffer text) ++ added) ∧
      ∀ c ∈ added.head?, c = '?' ∨ c = '#' := by
  induction text generalizing segments buffer with
  | nil => exact ⟨[], by simp [run, result, follow], by simp⟩
  | cons c rest ih =>
    rw [run, List.foldl_cons, next, pathStep, follow]
    split_ifs with hs hq hqf hf hqf hqf
    · exact ih _ _
    · obtain ⟨added, ha⟩ := machine.result_tail (.query head.special)
        (pathText head (closeLast head segments buffer) ++ ['?']) rest
      refine ⟨'?' :: added, ?_, by simp⟩
      rw [← run, ha, List.append_assoc]
      rfl
    · exact absurd (.inl hq) hqf
    · obtain ⟨added, ha⟩ := machine.result_tail .fragment
        (pathText head (closeLast head segments buffer) ++ ['#']) rest
      refine ⟨'#' :: added, ?_, by simp⟩
      rw [← run, ha, List.append_assoc]
      rfl
    · exact absurd (.inr hf) hqf
    · exact absurd hqf (not_or.2 ⟨hq, hf⟩)
    · exact ih _ _

/-! ## A text in front of another -/

/-- a text that is its own serialized URL, with nothing in it that is not read -/
structure Normal (text : Chars) : Prop where
  parse : machine.parse text = some text
  edge : ∀ c ∈ text.head?, isEdge c = false
  read : ∀ c ∈ text, isDropped c = false

/-- read behind a text, the second one loses only what is not read at its end -/
theorem clean_append {text : Chars} (hedge : ∀ c ∈ text.head?, isEdge c = false)
    (hread : ∀ c ∈ text, isDropped c = false) (hlast : text.getLast? = some '/') (more : Chars) :
    clean (text ++ more) = text ++ cleanEnd more := by
  obtain ⟨front, rfl⟩ : ∃ front, text = front ++ ['/'] := by
    obtain ⟨front, h⟩ := List.getLast?_eq_some_iff.1 hlast
    exact ⟨front, h⟩
  have hfirst : ((front ++ ['/']) ++ more).dropWhile isEdge = (front ++ ['/']) ++ more := by
    cases front with
    | nil => simp [isEdge]
    | cons c front =>
      rw [List.cons_append, List.cons_append, List.dropWhile_cons_of_neg]
      simp [hedge c rfl]
  have hend : ((front ++ ['/']) ++ more).reverse.dropWhile isEdge =
      more.reverse.dropWhile isEdge ++ (front ++ ['/']).reverse := by
    rw [List.reverse_append, List.dropWhile_append]
    split_ifs with h
    · rw [List.isEmpty_iff.1 h]
      simp [isEdge]
    · rfl
  rw [clean, Chars.trimMatches, hfirst, hend, List.reverse_append, List.reverse_reverse, List.filter_append, cleanEnd]
  congr 1
  exact List.filter_eq_self.2 fun c hc => by simp [hread c hc]

theorem clean_self {text : Chars} (h : machine.Normal text) (hlast : text.getLast? = some '/') : clean text = text := by
  have := clean_append h.edge h.read hlast []
  simpa [cleanEnd] using this

theorem reached_append {text : Chars} (h : machine.Normal text) (hlast : text.getLast? = some '/') (more : Chars) :
    machine.reached (text ++ more) = machine.run (machine.reached text) (cleanEnd more) := by
  rw [reached, reached, clean_append h.edge h.read hlast, machine.clean_self h hlast, run, run, run, List.foldl_append]

/-- behind a separator nothing is buffered -/
theorem buffer_nil {text : Chars} (h : machine.Normal text) (hlast : text.getLast? = some '/') {head : Head}
    {segments : List Chars} {buffer : Chars} (hr : machine.reached text = .path head segments buffer) : buffer = [] := by
  rw [reached, machine.clean_self h hlast] at hr
  obtain ⟨front, rfl⟩ : ∃ front, text = front ++ ['/'] := List.getLast?_eq_some_iff.1 hlast
  rw [run, List.foldl_append, List.foldl_cons, List.foldl_nil] at hr
  have hstep (head : Head) (segments : List Chars) (buffer : Chars) :
      machine.pathStep head segments buffer '/' = .path head (close head segments buffer) [] := by
    simp [pathStep, isSeparator]
  generalize front.foldl machine.next (.front machine.start) = before at hr
  cases before with
  | front state =>
    rw [next] at hr
    cases hm : machine.step state '/' with
    | stay state => simp [hm, moved] at hr
    | path head again =>
      rw [hm, moved, hstep] at hr
      split_ifs at hr <;> cases hr <;> rfl
    | tail part text => simp [hm, moved] at hr
    | failure => simp [hm, moved] at hr
  | path head segments buffer =>
    rw [next, hstep] at hr
    cases hr
    rfl
  | tail part text =>
    obtain ⟨part', more, he⟩ := machine.tailStep_eq part text '/'
    rw [next, he] at hr
    cases hr
  | failure => cases hr

end Machine

/-! ## Segments and their text -/

theorem flat_cons (segment : Chars) (segments : List Chars) : flat (segment :: segments) = '/' :: (segment ++ flat segments) := by
  simp [flat]

/-- two segments that go on with separators or ends are equal if one text begins the other -/
theorem segment_eq {a b x y : Chars} (ha : ∀ c ∈ a, c ≠ '/' ∧ c ≠ '?' ∧ c ≠ '#') (hb : ∀ c ∈ b, c ≠ '/' ∧ c ≠ '?' ∧ c ≠ '#')
    (hy : ∀ c ∈ y.head?, c = '/' ∨ c = '?' ∨ c = '#') (h : a ++ '/' :: x <+: b ++ y) : a = b := by
  induction a generalizing b with
  | nil =>
    cases b with
    | nil => rfl
    | cons d b =>
      rw [List.nil_append, List.cons_append, List.cons_prefix_cons] at h
      exact absurd h.1.symm (hb d List.mem_cons_self).1
  | cons c a ih =>
    cases b with
    | nil =>
      rw [List.nil_append] at h
      obtain ⟨more, hm⟩ := h
      have hc := ha c List.mem_cons_self
      rcases hy c (by rw [← hm]; rfl) with rfl | rfl | rfl
      · exact absurd rfl hc.1
      · exact absurd rfl hc.2.1
      · exact absurd rfl hc.2.2
    | cons d b =>
      rw [List.cons_append, List.cons_append, List.cons_prefix_cons] at h
      rw [h.1, ih (fun e he => ha e (List.mem_cons_of_mem _ he)) (fun e he => hb e (List.mem_cons_of_mem _ he)) h.2]

/-- the text of a directory begins the text of a path exactly if its segments begin the path's -/
theorem flat_begins {dirs segments : List Chars} {added : Chars} (hd : ∀ s ∈ dirs, Machine.CleanSegment s)
    (hs : ∀ s ∈ segments, Machine.CleanSegment s) (ha : ∀ c ∈ added.head?, c = '?' ∨ c = '#') :
    flat (dirs ++ [[]]) <+: flat segments ++ added ↔ segments ≠ [] ∧ dirs <+: segments.dropLast := by
  have hadded : ¬ ∃ x, '/' :: x <+: added := by
    rintro ⟨x, more, hm⟩
    rcases ha '/' (by rw [← hm]; rfl) with h | h <;> cases h
  induction dirs generalizing segments with
  | nil =>
    cases segments with
    | nil =>
      refine iff_of_false ?_ (by simp)
      exact fun h => hadded ⟨[], h⟩
    | cons s segments =>
      refine iff_of_true ?_ ⟨List.cons_ne_nil _ _, List.nil_prefix⟩
      rw [flat_cons, List.nil_append, flat_cons, List.cons_append, List.cons_prefix_cons]
      exact ⟨rfl, List.nil_prefix⟩
  | cons d dirs ih =>
    have hflat : ∃ x, flat (dirs ++ [[]]) = '/' :: x := by
      cases dirs with
      | nil => exact ⟨_, flat_cons _ _⟩
      | cons e dirs => exact ⟨_, flat_cons _ _⟩
    obtain ⟨x, hx⟩ := hflat
    rw [List.cons_append, flat_cons]
    cases segments with
    | nil =>
      refine iff_of_false ?_ (by simp)
      exact fun h => hadded ⟨_, h⟩
    | cons s segments =>
      have hi := ih (fun t ht => hd t (List.mem_cons_of_mem _ ht)) (fun t ht => hs t (List.mem_cons_of_mem _ ht))
      -- a segment is followed by a separator, or by what ends the path
      have hfollow : ∀ c ∈ (flat segments ++ added).head?, c = '/' ∨ c = '?' ∨ c = '#' := by
        intro c hc
        cases segments with
        | nil => exact .inr (ha c hc)
        | cons t segments =>
          rw [flat_cons] at hc
          cases hc
          exact .inl rfl
      rw [flat_cons, List.cons_append, List.cons_prefix_cons, List.append_assoc]
      constructor
      · rintro ⟨-, h⟩
        have hsame : d = s := by
          rw [hx] at h
          exact segment_eq (hd d List.mem_cons_self) (hs s List.mem_cons_self) hfollow h
        subst hsame
        obtain ⟨hne, hpre⟩ := hi.1 ((List.prefix_append_right_inj d).1 h)
        rw [List.dropLast_cons_of_ne_nil hne, List.cons_prefix_cons]
        exact ⟨List.cons_ne_nil _ _, rfl, hpre⟩
      · rintro ⟨-, h⟩
        have hne : segments ≠ [] := by
          rintro rfl
          exact absurd h (by simp)
        rw [List.dropLast_cons_of_ne_nil hne, List.cons_prefix_cons] at h
        rw [h.1]
        exact ⟨rfl, (List.prefix_append_right_inj s).2 (hi.2 ⟨hne, h.2⟩)⟩

theorem lead_cases (head : Head) (segments : List Chars) : lead head segments = [] ∨ lead head segments = [['.']] := by
  unfold lead
  split_ifs
  · exact .inr rfl
  · exact .inl rfl

theorem lead_clean (head : Head) (segments : List Chars) : ∀ s ∈ lead head segments, Machine.CleanSegment s := by
  intro s hs
  rcases lead_cases head segments with h | h <;> rw [h] at hs
  · cases hs
  · cases List.mem_singleton.1 hs
    intro c hc
    cases List.mem_singleton.1 hc
    decide

/-- the dot in front is no segment, so it does not matter to which segments begin which -/
theorem lead_begins (head : Head) {dirs segments : List Chars} (hd : Machine.CleanPath dirs)
    (hs : Machine.CleanPath segments) :
    lead head (dirs ++ [[]]) ++ dirs <+: lead head segments ++ segments.dropLast ↔ dirs <+: segments.dropLast := by
  have hdot : isSingleDot ['.'] = true := by decide
  cases dirs with
  | nil => simp [lead]
  | cons d dirs =>
    constructor
    · intro h
      rcases lead_cases head (d :: dirs ++ [[]]) with h1 | h1 <;> rcases lead_cases head segments with h2 | h2 <;>
        rw [h1, h2] at h
      · exact h
      · -- the first directory would be a dot
        rw [List.nil_append, List.singleton_append, List.cons_prefix_cons] at h
        have := (hd d List.mem_cons_self).2
        rw [h.1, hdot] at this
        cases this
      · have hmem : ['.'] ∈ segments := List.mem_of_mem_dropLast (h.subset (List.mem_append_left _ List.mem_cons_self))
        have := (hs _ hmem).2
        rw [hdot] at this
        cases this
      · exact (List.prefix_append_right_inj _).1 h
    · intro h
      have hlead : lead head (d :: dirs ++ [[]]) = lead head segments := by
        obtain ⟨more, hm⟩ := h
        cases segments with
        | nil => cases hm
        | cons s segments =>
          cases segments with
          | nil => cases hm
          | cons t segments =>
            rw [List.dropLast_cons_of_ne_nil (List.cons_ne_nil _ _)] at hm
            have hsame : d = s := (List.cons.inj hm).1
            simp [lead, hsame]
      rw [hlead]
      exact (List.prefix_append_right_inj _).2 h

/-! ## Staying in a directory -/

namespace Machine

variable {F : Type} (machine : Machine F)

/-- a directory, and a text that leads to somewhere in it; behind an opaque path or a query nothing is a directory, and
a text only goes on -/
def Stays (text more : Chars) : Prop :=
  text.getLast? = some '/' ∧
    match machine.reached text with
    | .path head dirs _ => dirs <+: (machine.follow head dirs [] (cleanEnd more)).dropLast
    | .tail _ _ => True
    | .front _ => False
    | .failure => False

/-- **Staying in a directory.** Of a URL's text that settles and ends in a separator, the serialized URL of a longer
text begins with it exactly if what follows stays in the directory. -/
theorem begins_iff {text more result : Chars} (h : machine.Normal text) (hlast : text.getLast? = some '/')
    (hsettled : machine.Settled text) (hresult : machine.parse (text ++ more) = some result) :
    text <+: result ↔ machine.Stays text more := by
  have hown := h.parse
  rw [parse] at hown
  rw [parse, machine.reached_append h hlast] at hresult
  have hstart : Clean (State.front machine.start) := trivial
  have hclean := machine.run_clean hstart (clean text)
  rw [← reached] at hclean
  unfold Stays
  simp only [hlast, true_and]
  cases hreached : machine.reached text with
  | front state => exact absurd hreached (hsettled state)
  | failure =>
    rw [hreached] at hown
    cases hown
  | tail part before =>
    rw [hreached] at hown hresult
    obtain ⟨added, ha⟩ := machine.result_tail part before (cleanEnd more)
    rw [ha] at hresult
    cases hresult
    cases hown
    exact iff_of_true (List.prefix_append _ _) trivial
  | path head dirs buffer =>
    rw [hreached] at hown hresult hclean
    have hb := machine.buffer_nil h hlast hreached
    subst hb
    obtain ⟨added, ha, hadded⟩ := machine.result_path head dirs [] (cleanEnd more)
    rw [ha] at hresult
    cases hresult
    have htext : pathText head (dirs ++ [[]]) = text := by
      have hw : closeLast head dirs [] = dirs ++ [[]] := by
        simp [closeLast, isDoubleDot, isSingleDot, Chars.toAsciiLowercase, written, isDrive]
      rw [result, hw] at hown
      exact Option.some.inj hown
    have hfollow := machine.follow_clean head (cleanEnd more) hclean.1 hclean.2
    have hne := machine.follow_ne_nil head (cleanEnd more) dirs []
    have hdirs : ∀ s ∈ lead head (dirs ++ [[]]) ++ dirs, CleanSegment s := by
      intro s hs
      rcases List.mem_append.1 hs with hs | hs
      · exact lead_clean _ _ s hs
      · exact (hclean.1 s hs).1
    have hsegments : ∀ s ∈ lead head (machine.follow head dirs [] (cleanEnd more)) ++
        machine.follow head dirs [] (cleanEnd more), CleanSegment s := by
      intro s hs
      rcases List.mem_append.1 hs with hs | hs
      · exact lead_clean _ _ s hs
      · exact (hfollow s hs).1
    rw [← htext, pathText, pathText, List.append_assoc, List.prefix_append_right_inj, ← List.append_assoc,
      flat_begins hdirs hsegments hadded, List.dropLast_append_of_ne_nil hne, lead_begins head hclean.1 hfollow]
    exact and_iff_right (by simp [hne])

end Machine

end Render.Net.UrlPaths
