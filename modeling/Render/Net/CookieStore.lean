/-
What a store of cookies is read back to: every line that is loaded gives back a cookie that the store was written from.

The fields of a line hold no tab and no line feed, so a line splits where it was joined; a field is escaped, a flag has two
spellings, a number is read back from its digits.
-/
import Render.Net.Cookie

namespace Render.Net

open Render.Core

namespace Chars

/-! ## Lines -/

/-- a line feed ends the first line -/
theorem lines_cons {line : Chars} (hline : '\n' ∉ line) (rest : Chars) :
    lines (line ++ '\n' :: rest) = chomp line :: lines rest := by
  have hsplit : (line ++ '\n' :: rest).splitOn '\n' = line :: rest.splitOn '\n' :=
    List.splitOn_append_cons_self_of_not_mem hline rest
  have hne : rest.splitOn '\n' ≠ [] := List.splitOn_ne_nil '\n' rest
  have hlast : (rest.splitOn '\n').getLast? = some ((rest.splitOn '\n').getLast hne) := List.getLast?_eq_some_getLast hne
  generalize (rest.splitOn '\n').getLast hne = last at hlast
  have hlast' : (line :: rest.splitOn '\n').getLast? = some last := by
    rw [List.getLast?_cons, hlast, Option.getD_some]
  simp only [lines, hsplit, hlast', hlast, List.dropLast_cons_of_ne_nil hne, List.map_cons]
  cases last with
  | nil => rfl
  | cons c cs => rfl

theorem chomp_of_last {line : Chars} {c : Char} (h : line.getLast? = some c) (hc : c ≠ '\r') : chomp line = line := by
  rw [chomp, h, if_neg fun heq => hc (Option.some.inj heq)]

/-! ## Numbers -/

theorem digits_toDigits (n : ℕ) : digits (Nat.toDigits 10 n) = some n := by
  have hall : (Nat.toDigits 10 n).all Char.isDigit = true :=
    List.all_eq_true.2 fun c hc => Nat.isDigit_of_mem_toDigits (by decide) (by decide) hc
  have hfold : (Nat.toDigits 10 n).foldl (fun m c => m * 10 + (c.toNat - '0'.toNat)) 0 = n := by
    have hvalue : Nat.ofDigitChars 10 (Nat.toDigits 10 n) 0 = n := Nat.ofDigitChars_ten_toDigits
    rw [Nat.ofDigitChars_eq_foldl] at hvalue
    simpa only [Nat.mul_comm] using hvalue
  have hne : Nat.toDigits 10 n ≠ [] := fun heq => by
    have hpos : 0 < (Nat.toDigits 10 n).length := Nat.length_toDigits_pos
    rw [heq] at hpos
    exact absurd hpos (Nat.lt_irrefl 0)
  rw [digits.eq_def]
  cases heq : Nat.toDigits 10 n with
  | nil => exact absurd heq hne
  | cons c cs =>
    rw [heq] at hall hfold
    simp only [hall, if_true, hfold]

/-- the first character of a number is no sign -/
theorem toDigits_head {n : ℕ} {c : Char} {rest : Chars} (h : Nat.toDigits 10 n = c :: rest) : c ≠ '+' ∧ c ≠ '-' := by
  have hdigit : c.isDigit := Nat.isDigit_of_mem_toDigits (by decide) (by decide) (h ▸ List.mem_cons_self)
  constructor <;> rintro rfl <;> exact absurd hdigit (by decide)

/-- a number of 64 bits is read back, and no other -/
theorem parseI64_ofI64_eq (n : ℤ) : parseI64 (ofI64 n) = if -2 ^ 63 ≤ n ∧ n < 2 ^ 63 then some n else none := by
  by_cases hneg : n < 0
  · have habs : -(n.natAbs : ℤ) = n := by omega
    simp only [ofI64, if_pos hneg, parseI64, digits_toDigits, Option.map_some, Option.bind_eq_bind, Option.bind_some, habs]
  · have habs : (n.natAbs : ℤ) = n := by omega
    rw [ofI64, if_neg hneg]
    cases hdigits : Nat.toDigits 10 n.natAbs with
    | nil =>
      have hpos : 0 < (Nat.toDigits 10 n.natAbs).length := Nat.length_toDigits_pos
      rw [hdigits] at hpos
      exact absurd hpos (Nat.lt_irrefl 0)
    | cons c rest =>
      obtain ⟨hplus, hminus⟩ := toDigits_head hdigits
      have hread : digits (c :: rest) = some n.natAbs := hdigits ▸ digits_toDigits n.natAbs
      have hunsigned : parseI64 (c :: rest) = (digits (c :: rest)).bind fun k =>
          if -2 ^ 63 ≤ (k : ℤ) ∧ (k : ℤ) < 2 ^ 63 then some (k : ℤ) else none := by
        rw [parseI64, hread]
        · rfl
        · rintro _ heq
          exact hplus (List.cons.inj heq).1
        · rintro _ heq
          exact hminus (List.cons.inj heq).1
      rw [hunsigned, hread, Option.bind_some, habs]

/-- a number is read back, if it is -/
theorem parseI64_ofI64 {n m : ℤ} (h : parseI64 (ofI64 n) = some m) : m = n := by
  rw [parseI64_ofI64_eq] at h
  split_ifs at h
  exact (Option.some.inj h).symm

end Chars

open Chars

/-! ## Fields -/

/-- the four characters that are escaped -/
theorem unescapeField_plain {c : Char} (hc : c ≠ '\\') (rest : Chars) :
    unescapeField (c :: rest) = (unescapeField rest).map (c :: ·) := by
  rw [unescapeField.eq_def]
  split
  · rename_i heq
    cases heq
  all_goals
    rename_i heq
    first
      | exact absurd (List.cons.inj heq).1 hc
      | (obtain ⟨rfl, rfl⟩ := List.cons.inj heq; rfl)

/-- what is escaped is read back -/
theorem unescapeField_escapeField (text : Chars) : unescapeField (escapeField text) = some text := by
  induction text with
  | nil => rfl
  | cons c rest ih =>
    have hcons : escapeField (c :: rest) = escapeField [c] ++ escapeField rest := by
      simp only [escapeField, List.flatMap_cons, List.flatMap_nil, List.append_nil]
    rw [hcons]
    by_cases hslash : c = '\\'
    · subst hslash
      show (unescapeField (escapeField rest)).map _ = _
      rw [ih, Option.map_some]
    by_cases htab : c = '\t'
    · subst htab
      show (unescapeField (escapeField rest)).map _ = _
      rw [ih, Option.map_some]
    by_cases hfeed : c = '\n'
    · subst hfeed
      show (unescapeField (escapeField rest)).map _ = _
      rw [ih, Option.map_some]
    by_cases hreturn : c = '\r'
    · subst hreturn
      show (unescapeField (escapeField rest)).map _ = _
      rw [ih, Option.map_some]
    have hplain : escapeField [c] = [c] := by
      simp only [escapeField, List.flatMap_cons, List.flatMap_nil, List.append_nil]
    rw [hplain, List.singleton_append, unescapeField_plain hslash, ih, Option.map_some]

/-- an escaped field holds no tab and no end of a line -/
theorem not_mem_escapeField {text : Chars} {c : Char} (hc : c = '\t' ∨ c = '\n' ∨ c = '\r') : c ∉ escapeField text := by
  intro hmem
  obtain ⟨d, -, hd⟩ := List.mem_flatMap.1 hmem
  split at hd
  case h_5 hslash htab hfeed hreturn =>
    obtain rfl := List.mem_singleton.1 hd
    rcases hc with rfl | rfl | rfl
    · exact htab rfl
    · exact hfeed rfl
    · exact hreturn rfl
  all_goals rcases hc with rfl | rfl | rfl <;> exact absurd hd (by decide)

theorem parseFlag_flag (value : Bool) : parseFlag (flag value) = some value := by cases value <;> rfl

theorem parseSameSiteField_sameSiteField (sameSite : Option SameSite) :
    parseSameSiteField (sameSiteField sameSite) = some sameSite := by
  rcases sameSite with _ | _ | _ | _ <;> rfl

/-- the end of a field, of a line, and the character before it -/
def isBreak (c : Char) : Bool := c = '\t' || c = '\n' || c = '\r'

theorem not_isBreak_of_isDigit {c : Char} (h : c.isDigit = true) : isBreak c = false := by
  rw [Bool.eq_false_iff]
  intro hbreak
  simp only [isBreak, Bool.or_eq_true, decide_eq_true_eq] at hbreak
  rcases hbreak with (rfl | rfl) | rfl <;> exact absurd h (by decide)

theorem not_isBreak_of_mem_ofI64 {n : ℤ} {c : Char} (h : c ∈ ofI64 n) : isBreak c = false := by
  have hdigits : ∀ m, c ∈ Nat.toDigits 10 m → isBreak c = false := fun m hmem =>
    not_isBreak_of_isDigit (Nat.isDigit_of_mem_toDigits (by decide) (by decide) hmem)
  rw [ofI64] at h
  split_ifs at h
  · rcases List.mem_cons.1 h with rfl | hmem
    · rfl
    · exact hdigits _ hmem
  · exact hdigits _ h

/-- the fields of a cookie hold no end of a field or a line -/
theorem not_isBreak_of_mem_storeFields {cookie : Cookie} {expiry : ℤ} {field : Chars} {c : Char}
    (hfield : field ∈ cookie.storeFields expiry) (hc : c ∈ field) : isBreak c = false := by
  have hescaped : ∀ text, c ∈ escapeField text → isBreak c = false := by
    intro text hmem
    rw [Bool.eq_false_iff]
    intro hbreak
    simp only [isBreak, Bool.or_eq_true, decide_eq_true_eq, or_assoc] at hbreak
    exact not_mem_escapeField hbreak hmem
  have hflag : ∀ value, c ∈ flag value → isBreak c = false := by
    intro value hmem
    cases value <;> (obtain rfl := List.mem_singleton.1 hmem; rfl)
  have hsite : ∀ sameSite, c ∈ sameSiteField sameSite → isBreak c = false := by
    have hall : ∀ sameSite, (sameSiteField sameSite).all (fun c => !isBreak c) = true := by
      intro sameSite
      rcases sameSite with _ | _ | _ | _ <;> rfl
    intro sameSite hmem
    simpa using List.all_eq_true.1 (hall sameSite) c hmem
  simp only [Cookie.storeFields, List.mem_cons, List.not_mem_nil, or_false] at hfield
  rcases hfield with rfl | rfl | rfl | rfl | rfl | rfl | rfl | rfl | rfl
  · exact hescaped _ hc
  · exact hescaped _ hc
  · exact hescaped _ hc
  · exact hescaped _ hc
  · exact hflag _ hc
  · exact hflag _ hc
  · exact hflag _ hc
  · exact hsite _ hc
  · exact not_isBreak_of_mem_ofI64 hc

/-! ## Lines of a store -/

/-- the line of a cookie -/
def Cookie.storeLine (cookie : Cookie) (expiry : ℤ) : Chars := joinWith ['\t'] (cookie.storeFields expiry)

/-- a line is split where it was joined -/
theorem splitOn_storeLine (cookie : Cookie) (expiry : ℤ) :
    (cookie.storeLine expiry).splitOn '\t' = cookie.storeFields expiry := by
  refine List.splitOn_intercalate '\t' ?_ (List.cons_ne_nil _ _)
  intro field hfield htab
  exact absurd (not_isBreak_of_mem_storeFields hfield htab) (by decide)

/-- what is read from the line of a cookie is that cookie -/
theorem parseStoreLine_storeLine {cookie read : Cookie} {expiry : ℤ} (hexpiry : cookie.expiresAt = some expiry)
    (h : parseStoreLine (cookie.storeLine expiry) = some read) : read = cookie := by
  rw [parseStoreLine, splitOn_storeLine, Cookie.storeFields] at h
  simp only [unescapeField_escapeField, parseFlag_flag, parseSameSiteField_sameSiteField, Option.bind_eq_bind,
    Option.bind_some] at h
  split_ifs at h
  obtain ⟨number, hnumber, hread⟩ := Option.bind_eq_some_iff.1 h
  obtain rfl := parseI64_ofI64 hnumber
  rw [← Option.some.inj hread, ← hexpiry]

/-- a line ends with the last digit of the expiry -/
theorem storeLine_eq (cookie : Cookie) (expiry : ℤ) : ∃ front, cookie.storeLine expiry = front ++ ofI64 expiry := by
  refine ⟨joinWith ['\t'] (cookie.storeFields expiry).dropLast ++ ['\t'], ?_⟩
  simp only [Cookie.storeLine, joinWith, Cookie.storeFields, List.dropLast, List.intercalate_cons_cons,
    List.intercalate_singleton, List.append_assoc]

/-- no character of a line ends it -/
theorem line_not_mem (cookie : Cookie) (expiry : ℤ) : '\n' ∉ cookie.storeLine expiry := by
  intro hmem
  rw [Cookie.storeLine, joinWith] at hmem
  have hbreak : ∀ texts : List Chars, (∀ text ∈ texts, '\n' ∉ text) → '\n' ∉ List.intercalate ['\t'] texts := by
    intro texts
    induction texts with
    | nil => exact fun _ => List.not_mem_nil
    | cons text rest ih =>
      intro hall
      cases rest with
      | nil =>
        rw [List.intercalate_singleton]
        exact hall text List.mem_cons_self
      | cons other others =>
        rw [List.intercalate_cons_cons, List.mem_append, List.mem_append]
        rintro ((hmem | hmem) | hmem)
        · exact hall text List.mem_cons_self hmem
        · exact absurd hmem (by decide)
        · exact ih (fun text hmem => hall text (List.mem_cons_of_mem _ hmem)) hmem
  exact hbreak _ (fun field hfield hfeed => absurd (not_isBreak_of_mem_storeFields hfield hfeed) (by decide)) hmem

theorem ofI64_ne_nil (n : ℤ) : ofI64 n ≠ [] := by
  rw [ofI64]
  split_ifs
  · exact List.cons_ne_nil _ _
  · exact List.ne_nil_of_length_pos Nat.length_toDigits_pos

theorem chomp_storeLine (cookie : Cookie) (expiry : ℤ) : chomp (cookie.storeLine expiry) = cookie.storeLine expiry := by
  obtain ⟨front, hline⟩ := storeLine_eq cookie expiry
  have hlast := List.getLast?_eq_some_getLast (ofI64_ne_nil expiry)
  rw [hline]
  refine chomp_of_last (c := (ofI64 expiry).getLast (ofI64_ne_nil expiry)) ?_ ?_
  · rw [List.getLast?_append, hlast, Option.some_or]
  · intro heq
    have hbreak := not_isBreak_of_mem_ofI64 (List.getLast_mem (ofI64_ne_nil expiry))
    rw [heq] at hbreak
    exact absurd hbreak (by decide)

/-- the line that a jar writes for a cookie, if it is persistent and live -/
def Cookie.liveLine (now : ℤ) (cookie : Cookie) : Option Chars := (cookie.expiresAt.filter (now < ·)).map cookie.storeLine

/-- the lines of a store are its header and those of the cookies of the jar -/
theorem lines_toStoreText (jar : CookieJar) (now : ℤ) :
    (jar.toStoreText now).lines = storeHeader :: jar.cookies.values.filterMap (Cookie.liveLine now) := by
  have hheader : chomp storeHeader = storeHeader := by decide
  rw [CookieJar.toStoreText, lines_cons (by decide), hheader]
  refine congrArg _ ?_
  generalize jar.cookies.values = cookies
  induction cookies with
  | nil => rfl
  | cons cookie rest ih =>
    rw [List.flatMap_cons]
    cases hlive : cookie.expiresAt.filter (now < ·) with
    | none =>
      rw [List.filterMap_cons_none (by rw [Cookie.liveLine, hlive]; rfl)]
      exact ih
    | some expiry =>
      rw [List.filterMap_cons_some (b := cookie.storeLine expiry) (by rw [Cookie.liveLine, hlive]; rfl)]
      dsimp only
      rw [List.append_assoc, List.singleton_append, ← Cookie.storeLine, lines_cons (line_not_mem cookie expiry),
        chomp_storeLine, ih]

end Render.Net
