/-
Surrogate pairs under `u` and `v`. No position that the matcher comes to lies between the two halves of a pair, so
neither the ends of a match nor those of its groups do (`find_whole`).

The loop of `RegExp.prototype[@@match]` (`runtime/builtins/regexp_symbols.rs`) goes on from `lastIndex`, which is the
end of the match before, or behind the character there after an empty match. It reports matches that do not overlap,
each further on than the one before (`matchLoop_from`). Of a RegExp object the model has the flag `g` and `lastIndex`, a
data property of its own, and `exec` is the built-in one; `lastIndex` is an integer here, since lengths of strings are
exact Numbers.
-/
import Render.Js.RegexCarried
import Render.Js.RegexFind

namespace Render.Js.Regex

/-! ## Positions -/

/-- a position of the input that is not inside a surrogate pair -/
def Whole (input : List ℕ) (position : ℕ) : Prop := position ≤ input.length ∧ isTrailInsidePair input position = false

variable {input : List ℕ}

theorem isTrailInsidePair_succ (index : ℕ) : isTrailInsidePair input (index + 1) =
    ((input[index + 1]?).any isTrail && (input[index]?).any isLead) := by
  simp [isTrailInsidePair]

theorem isTrail_of_isLead {unit : ℕ} (h : isLead unit = true) : isTrail unit = false := by
  simp only [isLead, isTrail, Bool.and_eq_true, decide_eq_true_eq, Bool.and_eq_false_iff,
    decide_eq_false_iff_not] at h ⊢
  omega

/-- the start of a pair is not inside one -/
theorem not_inside_of_isLead {position unit : ℕ} (hunit : input[position]? = some unit) (h : isLead unit = true) :
    isTrailInsidePair input position = false := by
  simp [isTrailInsidePair, hunit, isTrail_of_isLead h]

/-- behind the code point at a position -/
theorem not_inside_codePointAt {position character length : ℕ}
    (h : codePointAt input position true = some (character, length)) :
    isTrailInsidePair input (position + length) = false := by
  unfold codePointAt at h
  cases hunit : input[position]? with
  | none => simp [hunit] at h
  | some unit =>
    cases htrail : input[position + 1]? with
    | none =>
      simp only [hunit, htrail, Option.some.injEq, Prod.mk.injEq] at h
      rw [← h.2, isTrailInsidePair_succ, htrail]
      rfl
    | some trail =>
      simp only [hunit, htrail, Bool.true_and] at h
      split at h
      · rename_i hpair
        rw [Bool.and_eq_true] at hpair
        simp only [Option.some.injEq, Prod.mk.injEq] at h
        have hlead : isLead trail = false := by
          rw [Bool.eq_false_iff]
          intro hlead
          rw [isTrail_of_isLead hlead] at hpair
          cases hpair.2
        rw [← h.2, isTrailInsidePair_succ, htrail, Option.any_some, hlead, Bool.and_false]
      · rename_i hpair
        simp only [Option.some.injEq, Prod.mk.injEq] at h
        rw [← h.2, isTrailInsidePair_succ, hunit, htrail, Option.any_some, Option.any_some, Bool.and_comm]
        exact Bool.eq_false_iff.2 hpair

/-- before the code point that ends at a position -/
theorem not_inside_codePointBefore {position character length : ℕ}
    (h : codePointBefore input position true = some (character, length)) :
    isTrailInsidePair input (position - length) = false := by
  unfold codePointBefore at h
  cases position with
  | zero => cases h
  | succ index =>
    cases hunit : input[index]? with
    | none => simp [hunit] at h
    | some unit =>
      cases index with
      | zero =>
        simp only [hunit, Option.some.injEq, Prod.mk.injEq] at h
        rw [← h.2]
        rfl
      | succ before =>
        simp only [hunit] at h
        cases hlead : input[before]? with
        | none =>
          simp only [hlead, Option.some.injEq, Prod.mk.injEq] at h
          rw [← h.2, Nat.add_sub_cancel, isTrailInsidePair_succ, hlead, Option.any_none, Bool.and_false]
        | some lead =>
          simp only [hlead, Bool.true_and] at h
          split at h
          · rename_i hpair
            rw [Bool.and_eq_true] at hpair
            simp only [Option.some.injEq, Prod.mk.injEq] at h
            have hsub : before + 1 + 1 - 2 = before := by omega
            rw [← h.2, hsub]
            exact not_inside_of_isLead hlead hpair.2
          · rename_i hpair
            simp only [Option.some.injEq, Prod.mk.injEq] at h
            rw [← h.2, Nat.add_sub_cancel, isTrailInsidePair_succ, hunit, hlead, Option.any_some, Option.any_some]
            exact Bool.eq_false_iff.2 hpair

/-! ## The matcher -/

/-- under `u` the matcher is at whole positions -/
def wholePlaces (input : List ℕ) : Places where
  Ok := Whole input
  Reach backward position reached := Reaches input backward position reached ∧ Whole input reached
  FlagsOk flags := flags.unicode = true
  target h := h.2
  refl h := ⟨.refl h.1, h⟩
  trans h h' := ⟨h.1.trans h'.1, h'.2⟩

variable {Property : Type} {tables : Tables Property}

theorem singleLength_whole (node : Node Property) {flags : Flags} (backward : Bool) (hflags : flags.unicode = true) :
    SingleAlike (wholePlaces input) (singleLength tables input flags backward node)
      (singleLength tables input flags backward node) backward := by
  intro position hok
  refine ⟨rfl, fun length hlength => ?_⟩
  have hreach := (singleLength_reaches hok.1 hlength).1
  refine ⟨hreach, hreach.1, ?_⟩
  unfold singleLength at hlength
  rw [hflags] at hlength
  cases hread : (if backward then codePointBefore input position true else codePointAt input position true) with
  | none => simp [hread] at hlength
  | some r =>
    obtain ⟨actual, found⟩ := r
    simp only [hread] at hlength
    obtain ⟨-, hfound⟩ := Option.ite_none_right_eq_some.1 hlength
    cases hfound
    cases backward with
    | true => exact not_inside_codePointBefore (by simpa using hread)
    | false => exact not_inside_codePointAt (by simpa using hread)

/-- a back-reference ends at a whole position: the source checks it -/
theorem backreferenceEnd_whole {flags : Flags} {backward : Bool} {indices : List ℕ} {captures : Captures}
    {position ending : ℕ} (hflags : flags.unicode = true) (hok : Whole input position)
    (h : backreferenceEnd tables input flags backward indices captures position = some ending) :
    isTrailInsidePair input ending = false := by
  unfold backreferenceEnd at h
  split at h
  · cases h
    exact hok.2
  · dsimp only at h
    rw [Option.ite_none_left_eq_some] at h
    obtain ⟨-, h⟩ := h
    rw [Option.ite_none_left_eq_some] at h
    obtain ⟨-, h⟩ := h
    rw [Option.ite_none_left_eq_some] at h
    obtain ⟨hinside, h⟩ := h
    obtain ⟨-, hend⟩ := Option.ite_none_right_eq_some.1 h
    simp only [hflags, Bool.true_and, Bool.or_eq_true, not_or, Bool.not_eq_true] at hinside
    cases backward
    · cases hend
      exact hinside.2
    · cases hend
      exact hinside.1

theorem leafFits_whole (tables : Tables Property) (node : Node Property) :
    LeafFits tables input input (wholePlaces input) node := by
  cases node with
  | literal value => exact fun flags backward => singleLength_whole _ backward
  | anyChar => exact fun flags backward => singleLength_whole _ backward
  | «class» negated items => exact fun flags backward => singleLength_whole _ backward
  | backreference indices =>
    intro flags backward captures position hflags _ hok
    refine ⟨rfl, fun ending hending => ?_⟩
    have hreach := backreferenceEnd_reaches hok.1 hending
    exact ⟨hreach, hreach.1, backreferenceEnd_whole hflags hok hending⟩
  | modifiers ignoreCase multiline dotAll body => exact fun flags hflags => hflags
  | anchorStart => exact fun _ _ _ _ => rfl
  | anchorEnd => exact fun _ _ _ _ => rfl
  | wordBoundary expected => exact fun _ _ _ _ => rfl
  | _ => trivial

/-- an attempt at a whole position ends at a whole position further on, and leaves its groups at whole positions -/
theorem attempt_whole {limits : Option Limits} {fuel : ℕ} {compiled : Compiled Property} {start : ℕ}
    (hunicode : compiled.flags.unicode = true) (hstart : Whole input start) {r : Bool × Matcher}
    (h : attempt tables input limits fuel compiled start = some r) :
    SpansAt (Whole input) r.2.captures ∧ ∀ ending, r.2.ending = some ending → start ≤ ending ∧ Whole input ending := by
  have hnode := node_carried (carries_stays (wholePlaces input) limits
    fun ending => ∀ e, ending = some e → start ≤ e ∧ Whole input e) rfl fuel false
    (compiled.root.leaves_of_forall (leafFits_whole tables)) compiled.flags start
    (fun position m => some (true, { m with ending := some position })) _ hunicode hstart
    (by
      intro ending hreach m hflags hm
      refine ⟨rfl, fun r hr => ?_⟩
      cases hr
      refine ⟨hflags, hm.captures, fun e he => ?_⟩
      cases he
      exact ⟨hreach.1.2, hreach.2⟩)
  have hstays := ((hnode (.new compiled) rfl ⟨spansAt_replicate _, fun e he => by cases he⟩).2 r h).2
  exact ⟨hstays.captures, hstays.ending⟩

/-! ## The search -/

/-- the spans of a match lie at whole positions, in order -/
structure WholeMatch (input : List ℕ) (found : MatchRanges) : Prop where
  start : Whole input found.start
  «end» : Whole input found.end
  groups : SpansAt (Whole input) found.groups
  ordered : found.start ≤ found.end

theorem firstStart_whole (start : ℕ) : Whole input (firstStart input true start) := by
  refine ⟨firstStart_le input true start, ?_⟩
  unfold firstStart
  by_cases hinside : isTrailInsidePair input (Nat.min start input.length) = true
  · rw [if_pos (by simpa using hinside)]
    simp only [isTrailInsidePair, Bool.and_eq_true, decide_eq_true_eq] at hinside
    cases hunit : input[Nat.min start input.length - 1]? with
    | none => simp [hunit] at hinside
    | some unit => exact not_inside_of_isLead hunit (by simpa [hunit] using hinside.2)
  · rw [if_neg (by simpa using hinside)]
    exact Bool.eq_false_iff.2 hinside

theorem nextStart_whole {start : ℕ} (h : start < input.length) : Whole input (nextStart input true start) := by
  refine ⟨(nextStart_bounds input true h).2, ?_⟩
  unfold nextStart
  rw [if_pos rfl]
  cases hread : codePointAt input start true with
  | none =>
    obtain ⟨unit, hunit⟩ : ∃ unit, input[start]? = some unit := ⟨_, List.getElem?_eq_getElem h⟩
    unfold codePointAt at hread
    simp only [hunit] at hread
    split at hread
    · split at hread <;> cases hread
    · cases hread
  | some r =>
    obtain ⟨character, length⟩ := r
    exact not_inside_codePointAt hread

theorem search_whole {limits : Option Limits} {fuel : ℕ} {compiled : Compiled Property}
    (hunicode : compiled.flags.unicode = true) (passes : ℕ) {start : ℕ} (hstart : Whole input start)
    {found : MatchRanges} (h : search tables input limits fuel compiled passes start = some (some found)) :
    WholeMatch input found ∧ start ≤ found.start := by
  induction passes generalizing start with
  | zero => cases h
  | succ passes ih =>
    unfold search at h
    cases hattempt : attempt tables input limits fuel compiled start with
    | none => simp [hattempt] at h
    | some r =>
      rw [hattempt] at h
      obtain ⟨hcaptures, hending⟩ := attempt_whole hunicode hstart hattempt
      split at h
      · cases h
      · rename_i captures _ _ _ ending heq
        cases heq
        cases h
        obtain ⟨hle, hwhole⟩ := hending ending rfl
        exact ⟨⟨hstart, hwhole, fun span hmem => hcaptures span (List.mem_of_mem_drop hmem), hle⟩, le_rfl⟩
      · split at h
        · cases h
        · rename_i hgo
          have hlt : start < input.length := by
            by_contra hle
            exact hgo (by simp [Nat.not_lt.1 hle])
          rw [hunicode] at h
          obtain ⟨hfound, hle⟩ := ih (nextStart_whole hlt) h
          exact ⟨hfound, (nextStart_bounds input true hlt).1.le.trans hle⟩

/-- **No match cuts a pair.** Under `u` and `v` the start and the end of a match and of each of its groups lie outside
surrogate pairs. -/
theorem find_whole {compiled : Compiled Property} (hunicode : compiled.flags.unicode = true) {start : ℕ}
    {spawned : Bool} {found : MatchRanges} (h : find tables compiled input start spawned = some (some found)) :
    WholeMatch input found ∧ firstStart input true start ≤ found.start := by
  rw [find, hunicode] at h
  exact search_whole hunicode _ (firstStart_whole start) h

/-! ## The loop over all matches -/

/-- a RegExp object, as far as `exec` reads and writes it -/
structure RegExp (Property : Type) where
  compiled : Compiled Property
  global : Bool
  lastIndex : ℕ

/-- `advance_index` -/
def advanceIndex (input : List ℕ) (index : ℕ) (unicode : Bool) : ℕ :=
  match if unicode then codePointAt input index true else none with
  | some (_, length) => index + length
  | none => index + 1

/-- `advance_string_index` -/
def advanceStringIndex (input : List ℕ) (index : ℕ) (unicode : Bool) : ℕ :=
  if !unicode || input.length ≤ index + 1 then index + 1 else advanceIndex input index true

/-- `regexp_builtin_match`; `none` is a search without an answer, which does not occur (`find_returns`) -/
def builtinMatch (tables : Tables Property) (input : List ℕ) (spawned : Bool) (rx : RegExp Property) :
    Option (Option MatchRanges × RegExp Property) :=
  let tracks := rx.global || rx.compiled.flags.sticky
  let lastIndex := if tracks then rx.lastIndex else 0
  if input.length < lastIndex then some (none, if tracks then { rx with lastIndex := 0 } else rx)
  else
    (find tables rx.compiled input lastIndex spawned).map fun found =>
      match found with
      | none => (none, if tracks then { rx with lastIndex := 0 } else rx)
      | some found => (some found, if tracks then { rx with lastIndex := found.end } else rx)

/-- the loop of `symbol_match` for a global expression, in at most so many turns: the matches it collects -/
def matchLoop (tables : Tables Property) (input : List ℕ) (spawned : ℕ → Bool) :
    ℕ → RegExp Property → Option (List MatchRanges × RegExp Property)
  | 0, _ => none
  | turns + 1, rx =>
    match builtinMatch tables input (spawned turns) rx with
    | none => none
    | some (none, rx) => some ([], rx)
    | some (some found, rx) =>
      let rx :=
        if found.start = found.end then
          { rx with lastIndex := advanceStringIndex input found.end rx.compiled.flags.unicode }
        else rx
      (matchLoop tables input spawned turns rx).map fun rest => (found :: rest.1, rest.2)

/-- `symbol_match`, with the strings it collects as spans -/
def symbolMatch (tables : Tables Property) (input : List ℕ) (spawned : ℕ → Bool) (turns : ℕ) (rx : RegExp Property) :
    Option (List MatchRanges × RegExp Property) :=
  if rx.global then matchLoop tables input spawned turns { rx with lastIndex := 0 }
  else (builtinMatch tables input (spawned 0) rx).map fun r => (r.1.toList, r.2)

/-- the index behind an empty match: further on, whole, and within one step of the end of the input -/
theorem advanceStringIndex_whole {index : ℕ} (h : index ≤ input.length) :
    index < advanceStringIndex input index true ∧ advanceStringIndex input index true ≤ input.length + 1 ∧
      (advanceStringIndex input index true ≤ input.length → Whole input (advanceStringIndex input index true)) := by
  unfold advanceStringIndex
  rw [Bool.not_true, Bool.false_or]
  by_cases hlast : input.length ≤ index + 1
  · rw [if_pos (by simpa using hlast)]
    refine ⟨Nat.lt_succ_self _, by omega, fun hle => ⟨hle, ?_⟩⟩
    have hnone : input[index + 1]? = none := List.getElem?_eq_none hlast
    rw [isTrailInsidePair_succ, hnone]
    rfl
  · rw [if_neg (by simpa using hlast), advanceIndex, if_pos rfl]
    cases hread : codePointAt input index true with
    | none =>
      have hlt : index < input.length := by omega
      have hnext := nextStart_whole hlt
      rw [nextStart, if_pos rfl, hread] at hnext
      exact ⟨Nat.lt_succ_self _, by dsimp only; omega, fun _ => hnext⟩
    | some r =>
      obtain ⟨character, length⟩ := r
      obtain ⟨hpos, hle⟩ := codePointAt_bounds hread
      exact ⟨by dsimp only; omega, by dsimp only; omega, fun hle => ⟨hle, not_inside_codePointAt hread⟩⟩

theorem firstStart_of_whole {start : ℕ} (h : Whole input start) : firstStart input true start = start := by
  have hmin : Nat.min start input.length = start := Nat.min_eq_left h.1
  rw [firstStart, hmin, h.2, Bool.and_false, if_neg Bool.false_ne_true]

/-- where the loop can be: a whole position, or the one behind the input -/
def Resumes (input : List ℕ) (lastIndex : ℕ) : Prop :=
  lastIndex ≤ input.length + 1 ∧ (lastIndex ≤ input.length → Whole input lastIndex)

/-- one turn of a global expression: no match, or one from `lastIndex` on -/
theorem builtinMatch_spec (tables : Tables Property) {rx : RegExp Property} (hglobal : rx.global = true)
    (hunicode : rx.compiled.flags.unicode = true) (hindex : Resumes input rx.lastIndex) (spawned : Bool) :
    (∃ rx', builtinMatch tables input spawned rx = some (none, rx')) ∨
      ∃ found, builtinMatch tables input spawned rx = some (some found, { rx with lastIndex := found.end }) ∧
        WholeMatch input found ∧ rx.lastIndex ≤ found.start := by
  unfold builtinMatch
  rw [hglobal, Bool.true_or]
  by_cases hpast : input.length < rx.lastIndex
  · exact .inl ⟨_, if_pos (by simpa using hpast)⟩
  · simp only [if_true, if_neg hpast]
    obtain ⟨found, hfind⟩ := find_returns tables input rx.compiled rx.lastIndex spawned
    rw [hfind]
    cases found with
    | none => exact .inl ⟨_, rfl⟩
    | some found =>
      obtain ⟨hwhole, hle⟩ := find_whole hunicode hfind
      rw [firstStart_of_whole (hindex.2 (Nat.not_lt.1 hpast))] at hle
      exact .inr ⟨found, rfl, hwhole, hle⟩

/-- the matches follow one another: each starts behind the one before and does not overlap it -/
def Follow (found later : MatchRanges) : Prop := found.end ≤ later.start ∧ found.start < later.start

/-- the loop ends, and its matches lie from `lastIndex` on -/
theorem matchLoop_from (tables : Tables Property) (rx : RegExp Property) (hglobal : rx.global = true)
    (hunicode : rx.compiled.flags.unicode = true) (hindex : Resumes input rx.lastIndex) (spawned : ℕ → Bool) (turns : ℕ)
    (hturns : input.length + 1 < turns + rx.lastIndex) :
    ∃ collected rx', matchLoop tables input spawned turns rx = some (collected, rx') ∧
      (∀ found ∈ collected, WholeMatch input found ∧ rx.lastIndex ≤ found.start) ∧ collected.Pairwise Follow ∧
      collected.length + rx.lastIndex ≤ input.length + 1 := by
  induction turns generalizing rx with
  | zero =>
    have := hindex.1
    omega
  | succ turns ih =>
    rw [matchLoop]
    rcases builtinMatch_spec tables hglobal hunicode hindex (spawned turns) with
      ⟨rx', hmatch⟩ | ⟨found, hmatch, hwhole, hle⟩
    · rw [hmatch]
      exact ⟨[], rx', rfl, fun _ hmem => absurd hmem List.not_mem_nil, List.Pairwise.nil, by simpa using hindex.1⟩
    · -- the index that follows lies behind the start of the match, and not before its end
      rw [hmatch]
      dsimp only
      generalize hrest : (if found.start = found.end then
        { rx with lastIndex := advanceStringIndex input found.end rx.compiled.flags.unicode }
        else { rx with lastIndex := found.end } : RegExp Property) = rest
      obtain ⟨hg, hu, hresumes, hend, hstart⟩ : rest.global = true ∧ rest.compiled.flags.unicode = true ∧
          Resumes input rest.lastIndex ∧ found.end ≤ rest.lastIndex ∧ found.start < rest.lastIndex := by
        subst hrest
        by_cases hempty : found.start = found.end
        · have hadvance := advanceStringIndex_whole hwhole.end.1
          rw [← hunicode] at hadvance
          obtain ⟨hless, hbound, hnext⟩ := hadvance
          rw [if_pos hempty]
          exact ⟨hglobal, hunicode, ⟨hbound, hnext⟩, hless.le, hempty ▸ hless⟩
        · rw [if_neg hempty]
          have hlast : found.end ≤ input.length + 1 := hwhole.end.1.trans (Nat.le_succ _)
          exact ⟨hglobal, hunicode, ⟨hlast, fun _ => hwhole.end⟩, le_rfl, lt_of_le_of_ne hwhole.ordered hempty⟩
      obtain ⟨collected, rx', hloop, hall, hpairs, hlength⟩ := ih rest hg hu hresumes (by omega)
      refine ⟨found :: collected, rx', by rw [hloop]; rfl, List.forall_mem_cons.2 ⟨⟨hwhole, hle⟩, fun later hmem => ?_⟩,
        List.pairwise_cons.2 ⟨fun later hmem => ?_, hpairs⟩, ?_⟩
      · obtain ⟨hlater, hfrom⟩ := hall later hmem
        exact ⟨hlater, by omega⟩
      · have hfrom := (hall later hmem).2
        exact ⟨hend.trans hfrom, hstart.trans_le hfrom⟩
      · rw [List.length_cons]
        omega

/-- **Surrogate pairs and progress.** Under `u` and `v` no match cuts a pair, whatever the start; the loop of a global
expression ends after at most one turn more than it reports matches, and it reports matches that do not overlap, each
further on, at most one more than there are code units. -/
theorem matches_whole {compiled : Compiled Property} (hunicode : compiled.flags.unicode = true) (input : List ℕ) :
    (∀ start spawned found, find tables compiled input start spawned = some (some found) → WholeMatch input found) ∧
    ∀ (rx : RegExp Property) (spawned : ℕ → Bool), rx.compiled = compiled → rx.global = true →
      ∃ collected rx', symbolMatch tables input spawned (input.length + 2) rx = some (collected, rx') ∧
        collected.Pairwise Follow ∧ collected.length ≤ input.length + 1 := by
  refine ⟨fun start spawned found hfind => (find_whole hunicode hfind).1, fun rx spawned hcompiled hglobal => ?_⟩
  subst hcompiled
  have hresumes : Resumes input 0 := ⟨Nat.zero_le _, fun _ => ⟨Nat.zero_le _, rfl⟩⟩
  obtain ⟨collected, rx', hloop, -, hpairs, hlength⟩ := matchLoop_from tables { rx with lastIndex := 0 } hglobal
    hunicode hresumes spawned (input.length + 2) (by dsimp only; omega)
  exact ⟨collected, rx', by rw [symbolMatch, if_pos hglobal, hloop], hpairs, by simpa using hlength⟩

/-- the empty pattern under `u` -/
def emptyUnicode : Compiled Empty := ⟨.empty, 0, [], ⟨false, false, false, false, true⟩⟩

/-- a pair and a lone trail unit: the loop goes over the pair in one step -/
theorem matches_whole_sample :
    (∀ start spawned found, find asciiTables emptyUnicode [0xd83d, 0xde00, 0xdc00] start spawned = some (some found) →
      WholeMatch [0xd83d, 0xde00, 0xdc00] found) ∧
    ∀ (rx : RegExp Empty) (spawned : ℕ → Bool), rx.compiled = emptyUnicode → rx.global = true →
      ∃ collected rx', symbolMatch asciiTables [0xd83d, 0xde00, 0xdc00] spawned 5 rx = some (collected, rx') ∧
        collected.Pairwise Follow ∧ collected.length ≤ 4 :=
  matches_whole (rfl : emptyUnicode.flags.unicode = true) [0xd83d, 0xde00, 0xdc00]

end Render.Js.Regex
