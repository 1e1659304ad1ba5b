/-
Scans of a string of octets, and the rules that relate a scan to a format. Nothing here is about this repository.

A scan reads octets from a place on and returns a value or an error; on both it leaves a place. A format relates octets to
values: `G read a` says that the octets `read` are a way to write `a`.

- `Reads m G`: the scan returns `a` exactly when octets that `G` relates to `a` come next, and stops behind them.
- `Frugal m`: no run leaves the octets or copies more than it reads, also when it fails; `Charged m`: a run that
  returns reads more than it copies, so that there is something left to pay for the place of an element in a list.
-/
import Mathlib.Tactic
import Render.Core.Integers

namespace Render.Core

/-! ## Numbers, least significant octet first -/

/-- the octets of a number, least significant first -/
def toLe (width n : ℕ) : Octets := (toBe width n).reverse

/-- the number that octets spell, least significant first -/
def ofLe (octets : Octets) : ℕ := ofBe octets.reverse

@[simp] theorem length_toLe (width n : ℕ) : (toLe width n).length = width := by
  rw [toLe, List.length_reverse, length_toBe]

theorem ofLe_toLe {width n : ℕ} (h : n < 256 ^ width) : ofLe (toLe width n) = n := by
  rw [ofLe, toLe, List.reverse_reverse, ofBe_toBe_of_lt h]

theorem toBe_ofBe (octets : Octets) : toBe octets.length (ofBe octets) = octets := by
  induction octets using List.reverseRecOn with
  | nil => rfl
  | append_singleton octets octet ih =>
    have hless := octet.toNat_lt
    have hdiv : (ofBe octets * 256 + octet.toNat) / 256 = ofBe octets := by omega
    have hmod : (ofBe octets * 256 + octet.toNat) % 256 = octet.toNat := by omega
    rw [ofBe_concat, List.length_append, List.length_singleton, toBe, hdiv, hmod, ih, UInt8.ofNat_toNat]

theorem toLe_ofLe {width : ℕ} {octets : Octets} (h : octets.length = width) : toLe width (ofLe octets) = octets := by
  rw [toLe, ofLe, ← h, ← List.length_reverse, toBe_ofBe, List.reverse_reverse]

theorem ofLe_lt {width : ℕ} {octets : Octets} (h : octets.length = width) : ofLe octets < 256 ^ width := by
  rw [ofLe, ← h, ← List.length_reverse]
  exact ofBe_lt _

/-! ## Places -/

/-- a place in a string of octets, and how many octets and elements were copied so far -/
structure Cursor where
  octets : Octets
  offset : ℕ
  copied : ℕ

namespace Cursor

/-- the octets from the place on -/
def rest (c : Cursor) : Octets := c.octets.drop c.offset

def Inside (c : Cursor) : Prop := c.offset ≤ c.octets.length

/-- the place behind a number of octets -/
structure Behind (c c' : Cursor) (n : ℕ) : Prop where
  octets : c'.octets = c.octets
  offset : c'.offset = c.offset + n

/-- the place is not before the other, inside the octets, and no more was copied than was read -/
structure Follows (c c' : Cursor) : Prop where
  octets : c'.octets = c.octets
  offset : c.offset ≤ c'.offset
  inside : c'.Inside
  copied : c'.copied + c.offset ≤ c.copied + c'.offset

variable {c c' c'' : Cursor}

theorem Behind.trans {n m : ℕ} (h : Behind c c' n) (h' : Behind c' c'' m) : Behind c c'' (n + m) where
  octets := h'.octets.trans h.octets
  offset := by rw [h'.offset, h.offset, Nat.add_assoc]

theorem Behind.rest {n : ℕ} (h : Behind c c' n) : c'.rest = c.rest.drop n := by
  rw [Cursor.rest, Cursor.rest, h.octets, h.offset, List.drop_drop]

theorem length_rest (c : Cursor) : c.rest.length = c.octets.length - c.offset := List.length_drop

theorem Behind.inside {read rest : Octets} (h : Behind c c' read.length) (hin : c.Inside) (hrest : c.rest = read ++ rest) :
    c'.Inside := by
  have hlength := c.length_rest
  rw [hrest, List.length_append] at hlength
  rw [Inside, h.octets, h.offset]
  rw [Inside] at hin
  omega

theorem Follows.refl (h : c.Inside) : Follows c c := ⟨rfl, le_rfl, h, le_rfl⟩

theorem Follows.trans (h : Follows c c') (h' : Follows c' c'') : Follows c c'' := by
  refine ⟨h'.octets.trans h.octets, h.offset.trans h'.offset, h'.inside, ?_⟩
  have h1 := h.copied
  have h2 := h'.copied
  omega

end Cursor

/-- a scan: the result, and the place where it stops -/
def Scan (ε α : Type) := Cursor → Except ε α × Cursor

namespace Scan

variable {ε α β : Type}

def bind (m : Scan ε α) (f : α → Scan ε β) : Scan ε β := fun c =>
  match m c with
  | (.ok a, c') => f a c'
  | (.error e, c') => (.error e, c')

instance : Monad (Scan ε) where
  pure a := fun c => (.ok a, c)
  bind := bind

/-- the next octets, an error when there are not so many -/
def take (length : ℕ) (truncated : ε) : Scan ε Octets := fun c =>
  if c.offset + length ≤ c.octets.length then (.ok (c.rest.take length), { c with offset := c.offset + length })
  else (.error truncated, c)

/-- a result that depends on what was read -/
def check (result : Except ε α) : Scan ε α := fun c => (result, c)

/-- octets that were read are copied -/
def copy (octets : Octets) : Scan ε Octets := fun c => (.ok octets, { c with copied := c.copied + octets.length })

/-- an element goes into a list -/
def push : Scan ε Unit := fun c => (.ok (), { c with copied := c.copied + 1 })

/-- the scan as many times, its values in a list -/
def times (m : Scan ε α) : ℕ → Scan ε (List α)
  | 0 => pure []
  | n + 1 => do
    let a ← m
    push
    let as ← times m n
    return a :: as

theorem bind_ok {m : Scan ε α} {f : α → Scan ε β} {c c' : Cursor} {b : β} :
    (m >>= f) c = (.ok b, c') ↔ ∃ a d, m c = (.ok a, d) ∧ f a d = (.ok b, c') := by
  have hbind : (m >>= f) c = bind m f c := rfl
  rw [hbind, bind]
  rcases m c with ⟨e | a, d⟩ <;> simp

theorem bind_state (m : Scan ε α) (f : α → Scan ε β) (c : Cursor) :
    ((m >>= f) c).2 = (m c).2 ∨ ∃ a d, m c = (.ok a, d) ∧ ((m >>= f) c).2 = (f a d).2 := by
  have hbind : (m >>= f) c = bind m f c := rfl
  rw [hbind, bind]
  rcases m c with ⟨e | a, d⟩
  · exact .inl rfl
  · exact .inr ⟨a, d, rfl, rfl⟩

/-! ## Formats -/

/-- the scan reads exactly the values that the format knows -/
structure Reads (m : Scan ε α) (G : Octets → α → Prop) : Prop where
  sound : ∀ {c c' a}, c.Inside → m c = (.ok a, c') → ∃ read, G read a ∧ c.rest = read ++ c'.rest ∧ c.Behind c' read.length
  complete : ∀ {c read a rest}, c.Inside → G read a → c.rest = read ++ rest → ∃ c', m c = (.ok a, c') ∧ c.Behind c' read.length

section Reads

variable {m : Scan ε α} {f : α → Scan ε β} {G : Octets → α → Prop} {H : α → Octets → β → Prop}

theorem reads_pure (a : α) : Reads (pure a : Scan ε α) fun read a' => read = [] ∧ a' = a where
  sound _ h := by
    cases h
    exact ⟨[], ⟨rfl, rfl⟩, rfl, rfl, rfl⟩
  complete _ hG _ := by
    obtain ⟨rfl, rfl⟩ := hG
    exact ⟨_, rfl, rfl, rfl⟩

theorem Reads.bind (hm : Reads m G) (hf : ∀ a, Reads (f a) (H a)) :
    Reads (m >>= f) fun read b => ∃ a first second, read = first ++ second ∧ G first a ∧ H a second b where
  sound := by
    intro c c' b hin h
    obtain ⟨a, d, hfirst, hsecond⟩ := bind_ok.1 h
    obtain ⟨first, hG, hrest, hbehind⟩ := hm.sound hin hfirst
    obtain ⟨second, hH, hrest', hbehind'⟩ := (hf a).sound (hbehind.inside hin hrest) hsecond
    refine ⟨first ++ second, ⟨a, first, second, rfl, hG, hH⟩, ?_, ?_⟩
    · rw [hrest, hrest', List.append_assoc]
    · rw [List.length_append]
      exact hbehind.trans hbehind'
  complete := by
    intro c read b rest hin hread hrest
    obtain ⟨a, first, second, rfl, hG, hH⟩ := hread
    rw [List.append_assoc] at hrest
    obtain ⟨d, hfirst, hbehind⟩ := hm.complete hin hG hrest
    have hrest' : d.rest = second ++ rest := by
      rw [hbehind.rest, hrest, List.drop_left]
    obtain ⟨c', hsecond, hbehind'⟩ := (hf a).complete (hbehind.inside hin hrest) hH hrest'
    refine ⟨c', bind_ok.2 ⟨a, d, hfirst, hsecond⟩, ?_⟩
    rw [List.length_append]
    exact hbehind.trans hbehind'

theorem Reads.congr {G' : Octets → α → Prop} (hm : Reads m G) (h : ∀ read a, G read a ↔ G' read a) : Reads m G' := by
  have heq : G = G' := by
    funext read a
    exact propext (h read a)
  rwa [← heq]

theorem reads_take (length : ℕ) (truncated : ε) : Reads (take length truncated) fun read a => a = read ∧ read.length = length where
  sound := by
    intro c c' a hin h
    rw [take] at h
    split_ifs at h with hlength
    case neg => cases h
    cases h
    have hlen : (c.rest.take length).length = length := by
      rw [List.length_take, c.length_rest]
      omega
    refine ⟨c.rest.take length, ⟨rfl, hlen⟩, ?_, rfl, ?_⟩
    · rw [Cursor.rest, Cursor.rest, ← List.drop_drop]
      exact (List.take_append_drop length _).symm
    · rw [hlen]
  complete := by
    intro c read a rest hin hread hrest
    obtain ⟨rfl, rfl⟩ := hread
    have hlength := c.length_rest
    rw [hrest, List.length_append] at hlength
    have hfits : c.offset + a.length ≤ c.octets.length := by
      rw [Cursor.Inside] at hin
      omega
    refine ⟨{ c with offset := c.offset + a.length }, ?_, rfl, rfl⟩
    rw [take, if_pos hfits, hrest, List.take_left]

theorem reads_check (result : Except ε α) : Reads (check result) fun read a => read = [] ∧ result = .ok a where
  sound _ h := by
    cases h
    exact ⟨[], ⟨rfl, rfl⟩, rfl, rfl, rfl⟩
  complete _ hG _ := by
    obtain ⟨rfl, rfl⟩ := hG
    exact ⟨_, rfl, rfl, rfl⟩

theorem reads_copy (octets : Octets) : Reads (copy octets : Scan ε Octets) fun read a => read = [] ∧ a = octets where
  sound _ h := by
    cases h
    exact ⟨[], ⟨rfl, rfl⟩, rfl, rfl, rfl⟩
  complete _ hG _ := by
    obtain ⟨rfl, rfl⟩ := hG
    exact ⟨_, rfl, rfl, rfl⟩

theorem reads_push : Reads (push : Scan ε Unit) fun read _ => read = [] where
  sound _ h := by
    cases h
    exact ⟨[], rfl, rfl, rfl, rfl⟩
  complete _ hG _ := by
    obtain rfl := hG
    exact ⟨_, rfl, rfl, rfl⟩

/-- the elements of a list are written behind each other -/
theorem Reads.times (hm : Reads m G) : ∀ n, Reads (times m n) fun read as =>
    as.length = n ∧ ∃ parts : List Octets, read = parts.flatten ∧ List.Forall₂ G parts as
  | 0 => (reads_pure []).congr fun read as => by
    constructor
    · intro h
      obtain ⟨rfl, rfl⟩ := h
      exact ⟨rfl, [], rfl, .nil⟩
    · intro h
      obtain ⟨hlength, parts, rfl, hparts⟩ := h
      obtain rfl := List.length_eq_zero_iff.1 hlength
      cases hparts
      exact ⟨rfl, rfl⟩
  | n + 1 => (hm.bind fun a => reads_push.bind fun _ => (hm.times n).bind fun as => reads_pure (a :: as)).congr fun read as => by
    constructor
    · intro h
      obtain ⟨a, first, _, rfl, hG, _, _, _, rfl, rfl, as, second, _, rfl, ⟨hlength, parts, rfl, hparts⟩, rfl, rfl⟩ := h
      refine ⟨by rw [List.length_cons, hlength], first :: parts, ?_, .cons hG hparts⟩
      simp
    · intro h
      obtain ⟨hlength, parts, rfl, hparts⟩ := h
      cases hparts with
      | nil => cases hlength
      | @cons first a parts as hG hparts =>
        refine ⟨a, first, parts.flatten, rfl, hG, (), [], parts.flatten, rfl, rfl, as, parts.flatten, [], ?_, ?_, rfl, rfl⟩
        · rw [List.append_nil]
        · exact ⟨Nat.succ.inj hlength, parts, rfl, hparts⟩

end Reads

/-! ## What a scan costs -/

def Frugal (m : Scan ε α) : Prop := ∀ c : Cursor, c.Inside → c.Follows (m c).2

/-- a scan that leaves something over when it returns -/
structure Charged (m : Scan ε α) (spare : ℕ) : Prop where
  frugal : Frugal m
  spare : ∀ {c c' : Cursor} {a : α}, c.Inside → m c = (.ok a, c') → c'.copied + spare + c.offset ≤ c.copied + c'.offset

section Charged

variable {m : Scan ε α} {f : α → Scan ε β} {n k : ℕ}

theorem Frugal.ok (hm : Frugal m) {c c' : Cursor} {a : α} (hin : c.Inside) (h : m c = (.ok a, c')) : c.Follows c' := by
  have hfollows := hm c hin
  rwa [h] at hfollows

theorem Frugal.charged (hm : Frugal m) : Charged m 0 where
  frugal := hm
  spare hin h := (hm.ok hin h).copied

theorem Charged.bind (hm : Charged m n) (hf : ∀ a, Charged (f a) k) : Charged (m >>= f) (n + k) where
  frugal := by
    intro c hin
    rcases bind_state m f c with heq | ⟨a, d, hfirst, heq⟩
    · rw [heq]
      exact hm.frugal c hin
    · rw [heq]
      have hfollows := hm.frugal.ok hin hfirst
      exact hfollows.trans ((hf a).frugal d hfollows.inside)
  spare := by
    intro c c' b hin h
    obtain ⟨a, d, hfirst, hsecond⟩ := bind_ok.1 h
    have h1 := hm.spare hin hfirst
    have h2 := (hf a).spare (hm.frugal.ok hin hfirst).inside hsecond
    omega

theorem Charged.mono (hm : Charged m n) (hle : k ≤ n) : Charged m k where
  frugal := hm.frugal
  spare hin h := by
    have := hm.spare hin h
    omega

theorem charged_pure (a : α) : Charged (pure a : Scan ε α) 0 :=
  Frugal.charged fun _ hin => .refl hin

theorem charged_check (result : Except ε α) : Charged (check result) 0 :=
  Frugal.charged fun _ hin => .refl hin

theorem charged_take (length : ℕ) (truncated : ε) : Charged (take length truncated) length where
  frugal := by
    intro c hin
    rw [take]
    split_ifs with hfits
    · exact ⟨rfl, Nat.le_add_right _ _, hfits, by simp⟩
    · exact .refl hin
  spare := by
    intro c c' a hin h
    rw [take] at h
    split_ifs at h
    · cases h
      simp only
      omega
    · cases h

/-- what was read can be copied once -/
theorem charged_takeCopy (length : ℕ) (truncated : ε) : Charged (take length truncated >>= copy) 0 := by
  refine Frugal.charged fun c hin => ?_
  rcases bind_state (take length truncated) copy c with heq | ⟨octets, d, hfirst, heq⟩
  · rw [heq]
    exact (charged_take length truncated).frugal c hin
  · rw [heq]
    have hfollows := (charged_take length truncated).frugal.ok hin hfirst
    have hspare := (charged_take length truncated).spare hin hfirst
    have hlength : octets.length = length := by
      obtain ⟨read, ⟨rfl, hread⟩, _⟩ := (reads_take length truncated).sound hin hfirst
      exact hread
    refine ⟨hfollows.octets, hfollows.offset, hfollows.inside, ?_⟩
    simp only [copy]
    omega

/-- an element that leaves something over pays for its place -/
theorem charged_times (hm : Charged m 1) : ∀ n, Charged (times m n) 0
  | 0 => charged_pure []
  | n + 1 => by
    refine Frugal.charged fun c hin => ?_
    rcases bind_state m (fun a => push >>= fun _ => times m n >>= fun as => pure (a :: as)) c with heq | ⟨a, d, hfirst, heq⟩
    · rw [times, heq]
      exact hm.frugal c hin
    · rw [times, heq]
      have hfollows := hm.frugal.ok hin hfirst
      have hspare := hm.spare hin hfirst
      have hpushed : c.Follows { d with copied := d.copied + 1 } := by
        refine ⟨hfollows.octets, hfollows.offset, hfollows.inside, ?_⟩
        simp only
        omega
      have hrest := ((charged_times hm n).bind fun as => charged_pure (ε := ε) (a :: as)).frugal _ hpushed.inside
      exact hpushed.trans hrest

end Charged

/-! ## Numbers -/

/-- a number of a fixed width -/
def number (width : ℕ) (truncated : ε) : Scan ε ℕ := do
  let octets ← take width truncated
  return ofLe octets

theorem reads_number (width : ℕ) (truncated : ε) :
    Reads (number width truncated) fun read n => read = toLe width n ∧ n < 256 ^ width :=
  ((reads_take width truncated).bind fun octets => reads_pure (ofLe octets)).congr fun read n => by
    constructor
    · intro h
      obtain ⟨octets, _, _, rfl, ⟨rfl, hlength⟩, rfl, rfl⟩ := h
      rw [List.append_nil]
      exact ⟨(toLe_ofLe hlength).symm, ofLe_lt hlength⟩
    · intro h
      obtain ⟨rfl, hless⟩ := h
      exact ⟨toLe width n, toLe width n, [], (List.append_nil _).symm, ⟨rfl, length_toLe _ _⟩, rfl, (ofLe_toLe hless).symm⟩

theorem charged_number (width : ℕ) (truncated : ε) : Charged (number width truncated) width :=
  (charged_take width truncated).bind fun octets => charged_pure (ofLe octets)

end Scan

end Render.Core

/-! Hashes that roll over a text. Nothing here is about this repository.

A hash takes one letter after the other into its state. When every step is injective in the state and in the letter, a change
of one letter changes the state for good (`foldl_set_ne`): no later letter can hide it. -/

namespace Render.Core

variable {α β : Type}

/-- a step that loses neither its state nor its letter -/
structure Rolling (step : β → α → β) : Prop where
  state : ∀ letter, Function.Injective fun hash => step hash letter
  letter : ∀ hash, Function.Injective (step hash)

namespace Rolling

variable {step : β → α → β} (hstep : Rolling step)

include hstep

theorem foldl_injective (letters : List α) : Function.Injective fun hash => letters.foldl step hash := by
  induction letters with
  | nil => exact Function.injective_id
  | cons letter rest ih => exact ih.comp (hstep.state letter)

/-- **One changed letter changes the hash.** -/
theorem foldl_set_ne (hash : β) {letters : List α} {i : ℕ} (hi : i < letters.length) {letter : α} (hne : letter ≠ letters[i]) :
    (letters.set i letter).foldl step hash ≠ letters.foldl step hash := by
  induction letters generalizing hash i with
  | nil => exact absurd hi (Nat.not_lt_zero i)
  | cons first rest ih =>
    cases i with
    | zero =>
      intro hsame
      exact hne (hstep.letter hash (hstep.foldl_injective rest hsame))
    | succ i => exact ih (step hash first) (Nat.lt_of_succ_lt_succ hi) hne

end Rolling

end Render.Core
