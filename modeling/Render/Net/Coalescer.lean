/-
Identical concurrent GETs share one transfer (`RequestCoalescer` and `HttpTransport::fetch_coalesced` of
`render-net/src/transport.rs`).

Calls of `fetch` run on threads of their own. A step is what one call does under one lock, or between two: it enters, its
transfer ends, its result is stored, its entry is removed, or a follower checks its token and looks for a result. A call has
a token of its own, which may be cancelled at any time. What a transfer does is not looked into: it ends with some result,
and only with `Cancelled` if the token of its call is cancelled (`fetch_transfer` says `Cancelled` only after a look at it).
-/
import Mathlib.Tactic

namespace Render.Net

/-! ## Calls -/

inductive FetchResult (ρ ε : Type)
  | response (r : ρ)
  | failed (e : ε)
  | cancelled
  deriving DecidableEq

/-- where a call is; κ are the keys, an entry is also the number of its transfer -/
inductive CallPhase (κ ρ ε : Type)
  | outside
  /-- in `fetch_transfer`; a call without a key shares nothing -/
  | transferring (key : Option κ) (entry : ℕ)
  /-- in `finish`, before the result is stored -/
  | settled (key : κ) (entry : ℕ) (result : FetchResult ρ ε)
  /-- in `finish`, before the entry is removed -/
  | stored (key : κ) (entry : ℕ) (result : FetchResult ρ ε)
  /-- a follower, before it checks its token -/
  | checking (entry : ℕ)
  /-- a follower, before it looks for a result -/
  | looking (entry : ℕ)
  /-- a follower that waits to be woken, or for ten milliseconds -/
  | sleeping (entry : ℕ)
  | returned (entry : ℕ) (result : FetchResult ρ ε)
  deriving DecidableEq

namespace CallPhase

variable {κ ρ ε : Type}

/-- the entry a follower waits for -/
def awaits : CallPhase κ ρ ε → Option ℕ
  | checking entry | looking entry | sleeping entry => some entry
  | _ => none

/-- the entry of an owner that has not returned -/
def owns : CallPhase κ ρ ε → Option ℕ
  | transferring _ entry | settled _ entry _ | stored _ entry _ => some entry
  | _ => none

/-- the transfer of an owner that is running -/
def runs : CallPhase κ ρ ε → Option ℕ
  | transferring _ entry => some entry
  | _ => none

/-- the key and the entry of an owner that others may join -/
def holds : CallPhase κ ρ ε → Option (κ × ℕ)
  | transferring (some key) entry | settled key entry _ | stored key entry _ => some (key, entry)
  | _ => none

theorem owns_of_holds {p : CallPhase κ ρ ε} {key : κ} {entry : ℕ} (h : p.holds = some (key, entry)) :
    p.owns = some entry := by
  cases p with
  | transferring key' entry' => cases key' <;> simp_all [holds, owns]
  | _ => simp_all [holds, owns]

theorem owns_of_runs {p : CallPhase κ ρ ε} {entry : ℕ} (h : p.runs = some entry) : p.owns = some entry := by
  cases p <;> simp_all [runs, owns]

/-- the call has begun and not returned -/
def InProgress : CallPhase κ ρ ε → Prop
  | outside | returned _ _ => False
  | _ => True

end CallPhase

structure Coalescer (κ ρ ε : Type) where
  calls : ℕ → CallPhase κ ρ ε
  /-- the calls whose token is cancelled -/
  cancelled : ℕ → Prop
  /-- `in_flight` -/
  inFlight : κ → Option ℕ
  /-- the result in an entry -/
  slot : ℕ → Option (FetchResult ρ ε)
  /-- what a transfer ended with -/
  ended : ℕ → Option (FetchResult ρ ε)
  /-- entries and transfers are numbered from 0 -/
  next : ℕ

namespace Coalescer

variable {κ ρ ε : Type}

def init : Coalescer κ ρ ε := ⟨fun _ => .outside, fun _ => False, fun _ => none, fun _ => none, fun _ => none, 0⟩

/-- a call goes to a phase -/
def goes (s : Coalescer κ ρ ε) (c : ℕ) (phase : CallPhase κ ρ ε) : Coalescer κ ρ ε :=
  { s with calls := Function.update s.calls c phase }

inductive Act (κ ρ ε : Type)
  | enter (c : ℕ) (key : Option κ)
  | cancel (c : ℕ)
  | transfer (c : ℕ) (result : FetchResult ρ ε)
  | store (c : ℕ)
  | remove (c : ℕ)
  /-- a step of a follower in its loop -/
  | poll (c : ℕ)

/-- one step of one call -/
inductive Step [DecidableEq κ] : Coalescer κ ρ ε → Act κ ρ ε → Coalescer κ ρ ε → Prop
  /-- `coalesce_key` is `None` -/
  | alone {s} {c : ℕ} (h : s.calls c = .outside) :
      Step s (.enter c none) { s.goes c (.transferring none s.next) with next := s.next + 1 }
  /-- `RequestCoalescer::enter`, with no entry for the key -/
  | lead {s} {c : ℕ} {key : κ} (h : s.calls c = .outside) (hkey : s.inFlight key = none) :
      Step s (.enter c (some key))
        { s.goes c (.transferring (some key) s.next) with
          inFlight := Function.update s.inFlight key (some s.next), next := s.next + 1 }
  /-- `RequestCoalescer::enter`, with an entry for the key -/
  | join {s} {c : ℕ} {key : κ} {entry : ℕ} (h : s.calls c = .outside) (hkey : s.inFlight key = some entry) :
      Step s (.enter c (some key)) (s.goes c (.checking entry))
  | cancel {s} {c : ℕ} : Step s (.cancel c) { s with cancelled := fun c' => c' = c ∨ s.cancelled c' }
  /-- `fetch_transfer` returns -/
  | transfer {s} {c : ℕ} {key : κ} {entry : ℕ} {result : FetchResult ρ ε} (h : s.calls c = .transferring (some key) entry)
      (hresult : result = .cancelled → s.cancelled c) :
      Step s (.transfer c result)
        { s.goes c (.settled key entry result) with ended := Function.update s.ended entry (some result) }
  | transferAlone {s} {c : ℕ} {entry : ℕ} {result : FetchResult ρ ε} (h : s.calls c = .transferring none entry)
      (hresult : result = .cancelled → s.cancelled c) :
      Step s (.transfer c result)
        { s.goes c (.returned entry result) with ended := Function.update s.ended entry (some result) }
  /-- `finish`: the result is stored, and those who wait are woken -/
  | store {s} {c : ℕ} {key : κ} {entry : ℕ} {result : FetchResult ρ ε} (h : s.calls c = .settled key entry result) :
      Step s (.store c)
        { s.goes c (.stored key entry result) with slot := Function.update s.slot entry (some result) }
  /-- `finish`: the entry is removed if it is still there, and the owner returns -/
  | remove {s} {c : ℕ} {key : κ} {entry : ℕ} {result : FetchResult ρ ε} (h : s.calls c = .stored key entry result) :
      Step s (.remove c)
        { s.goes c (.returned entry result) with
          inFlight := if s.inFlight key = some entry then Function.update s.inFlight key none else s.inFlight }
  | giveUp {s} {c entry : ℕ} (h : s.calls c = .checking entry) (hcancelled : s.cancelled c) :
      Step s (.poll c) (s.goes c (.returned entry .cancelled))
  | goOn {s} {c entry : ℕ} (h : s.calls c = .checking entry) (hcancelled : ¬ s.cancelled c) :
      Step s (.poll c) (s.goes c (.looking entry))
  | find {s} {c entry : ℕ} {result : FetchResult ρ ε} (h : s.calls c = .looking entry ∨ s.calls c = .sleeping entry)
      (hslot : s.slot entry = some result) : Step s (.poll c) (s.goes c (.returned entry result))
  | sleep {s} {c entry : ℕ} (h : s.calls c = .looking entry) (hslot : s.slot entry = none) :
      Step s (.poll c) (s.goes c (.sleeping entry))
  | again {s} {c entry : ℕ} (h : s.calls c = .sleeping entry) (hslot : s.slot entry = none) :
      Step s (.poll c) (s.goes c (.checking entry))

/-- steps that all satisfy a condition -/
inductive Run [DecidableEq κ] (Allowed : Coalescer κ ρ ε → Act κ ρ ε → Prop) :
    Coalescer κ ρ ε → List (Act κ ρ ε) → Coalescer κ ρ ε → Prop
  | nil (s) : Run Allowed s [] s
  | snoc {s t u acts act} (hrun : Run Allowed s acts t) (hallowed : Allowed t act) (hstep : Step t act u) :
      Run Allowed s (acts ++ [act]) u

/-- any steps -/
abbrev Runs [DecidableEq κ] := Run (κ := κ) (ρ := ρ) (ε := ε) fun _ _ => True

/-! ## The invariant -/

variable {s t : Coalescer κ ρ ε} {c c' : ℕ} {p : CallPhase κ ρ ε}

@[simp] theorem goes_calls_self : (s.goes c p).calls c = p := Function.update_self ..

@[simp] theorem goes_calls_ne (h : c' ≠ c) : (s.goes c p).calls c' = s.calls c' := Function.update_of_ne h ..

@[simp] theorem goes_cancelled : (s.goes c p).cancelled = s.cancelled := rfl

@[simp] theorem goes_inFlight : (s.goes c p).inFlight = s.inFlight := rfl

@[simp] theorem goes_slot : (s.goes c p).slot = s.slot := rfl

@[simp] theorem goes_ended : (s.goes c p).ended = s.ended := rfl

@[simp] theorem goes_next : (s.goes c p).next = s.next := rfl

/-- an entry has an owner, or its result is stored -/
def Attended (s : Coalescer κ ρ ε) (entry : ℕ) : Prop :=
  (∃ owner key, (s.calls owner).holds = some (key, entry)) ∨ ∃ result, s.slot entry = some result

/-- what the phase of a call says about its entry -/
def Fits (s : Coalescer κ ρ ε) (c : ℕ) : CallPhase κ ρ ε → Prop
  | .outside => True
  | .transferring _ entry => s.ended entry = none
  | .settled _ entry result => s.ended entry = some result ∧ (result = .cancelled → s.cancelled c)
  | .stored _ entry result =>
    s.ended entry = some result ∧ s.slot entry = some result ∧ (result = .cancelled → s.cancelled c)
  | .checking entry | .looking entry | .sleeping entry => s.Attended entry
  | .returned entry result => s.ended entry = some result ∨ (result = .cancelled ∧ s.cancelled c)

structure Inv (s : Coalescer κ ρ ε) : Prop where
  numbered : ∀ c entry, (s.calls c).owns = some entry → entry < s.next
  unborn : ∀ entry, s.next ≤ entry → s.ended entry = none ∧ s.slot entry = none
  mapped : ∀ key entry, s.inFlight key = some entry → ∃ c, (s.calls c).holds = some (key, entry)
  unique : ∀ c c' entry, (s.calls c).owns = some entry → (s.calls c').owns = some entry → c = c'
  slots : ∀ entry result, s.slot entry = some result → s.ended entry = some result
  fits : ∀ c, s.Fits c (s.calls c)

theorem inv_init : Inv (init : Coalescer κ ρ ε) where
  numbered _ _ h := by cases h
  unborn _ _ := ⟨rfl, rfl⟩
  mapped _ _ h := by cases h
  unique _ _ _ h := by cases h
  slots _ _ h := by cases h
  fits _ := trivial

/-- a phase goes on fitting while results stay and its entry stays attended -/
theorem Fits.mono (h : s.Fits c p) (hruns : ∀ entry, p.runs = some entry → t.ended entry = s.ended entry)
    (hended : ∀ entry result, s.ended entry = some result → t.ended entry = some result)
    (hslot : ∀ entry result, s.slot entry = some result → t.slot entry = some result)
    (hcancelled : s.cancelled c → t.cancelled c)
    (hattended : ∀ entry, p.awaits = some entry → s.Attended entry → t.Attended entry) : t.Fits c p := by
  cases p with
  | outside => trivial
  | transferring key entry => exact (hruns entry rfl).trans h
  | settled key entry result => exact ⟨hended _ _ h.1, fun hr => hcancelled (h.2 hr)⟩
  | stored key entry result => exact ⟨hended _ _ h.1, hslot _ _ h.2.1, fun hr => hcancelled (h.2.2 hr)⟩
  | checking entry => exact hattended entry rfl h
  | looking entry => exact hattended entry rfl h
  | sleeping entry => exact hattended entry rfl h
  | returned entry result => exact h.imp (hended _ _) fun ⟨hr, hc⟩ => ⟨hr, hcancelled hc⟩

/-- a call that owns nothing goes to a phase in which it owns nothing -/
theorem Inv.goes (h : Inv s) (hold : (s.calls c).owns = none) (hnew : p.owns = none) (hfits : s.Fits c p) :
    Inv (s.goes c p) := by
  have howns : ∀ {c' entry}, ((s.goes c p).calls c').owns = some entry → (s.calls c').owns = some entry := by
    intro c' entry hc'
    rcases eq_or_ne c' c with rfl | hne
    · rw [goes_calls_self, hnew] at hc'
      cases hc'
    · rwa [goes_calls_ne hne] at hc'
  have hholds : ∀ {c' key entry}, (s.calls c').holds = some (key, entry) →
      ((s.goes c p).calls c').holds = some (key, entry) := by
    intro c' key entry hc'
    rcases eq_or_ne c' c with rfl | hne
    · rw [CallPhase.owns_of_holds hc'] at hold
      cases hold
    · rwa [goes_calls_ne hne]
  have hattended : ∀ entry, s.Attended entry → (s.goes c p).Attended entry := fun entry =>
    Or.imp_left fun ⟨owner, key, howner⟩ => ⟨owner, key, hholds howner⟩
  refine ⟨fun c' entry hc' => h.numbered c' entry (howns hc'), h.unborn, fun key entry hkey => ?_,
    fun c₁ c₂ entry h₁ h₂ => h.unique c₁ c₂ entry (howns h₁) (howns h₂), h.slots, fun c' => ?_⟩
  · obtain ⟨owner, howner⟩ := h.mapped key entry hkey
    exact ⟨owner, hholds howner⟩
  · rcases eq_or_ne c' c with rfl | hne
    · rw [goes_calls_self]
      exact hfits.mono (fun _ _ => rfl) (fun _ _ => id) (fun _ _ => id) id fun entry _ => hattended entry
    · rw [goes_calls_ne hne]
      exact (h.fits c').mono (fun _ _ => rfl) (fun _ _ => id) (fun _ _ => id) id fun entry _ => hattended entry

/-- an owner goes on with its entry: its transfer ends, or its result is stored -/
theorem Inv.proceed (h : Inv s) {key : κ} {entry : ℕ} {ended slot : ℕ → Option (FetchResult ρ ε)}
    (hold : (s.calls c).holds = some (key, entry)) (hnew : p.holds = some (key, entry))
    (hended : ∀ e, e ≠ entry → ended e = s.ended e) (hslot : ∀ e, e ≠ entry → slot e = s.slot e)
    (hkeptEnded : ∀ result, s.ended entry = some result → ended entry = some result)
    (hkeptSlot : ∀ result, s.slot entry = some result → slot entry = some result)
    (hslots : ∀ result, slot entry = some result → ended entry = some result)
    (hfits : Fits { s.goes c p with ended, slot } c p) : Inv { s.goes c p with ended, slot } := by
  have howned := CallPhase.owns_of_holds hold
  have hcalls : ∀ {c'}, ({ s.goes c p with ended, slot } : Coalescer κ ρ ε).calls c' = (s.goes c p).calls c' := rfl
  have howns : ∀ {c' e}, ((s.goes c p).calls c').owns = some e → (s.calls c').owns = some e := by
    intro c' e hc'
    rcases eq_or_ne c' c with rfl | hne
    · rw [goes_calls_self, CallPhase.owns_of_holds hnew] at hc'
      rwa [howned]
    · rwa [goes_calls_ne hne] at hc'
  have hholds : ∀ {c' key' e}, (s.calls c').holds = some (key', e) →
      ((s.goes c p).calls c').holds = some (key', e) := by
    intro c' key' e hc'
    rcases eq_or_ne c' c with rfl | hne
    · rwa [goes_calls_self, hnew, ← hold]
    · rwa [goes_calls_ne hne]
  have hallEnded : ∀ e result, s.ended e = some result → ended e = some result := by
    intro e result he
    rcases eq_or_ne e entry with rfl | hne
    · exact hkeptEnded result he
    · rwa [hended e hne]
  have hallSlot : ∀ e result, s.slot e = some result → slot e = some result := by
    intro e result he
    rcases eq_or_ne e entry with rfl | hne
    · exact hkeptSlot result he
    · rwa [hslot e hne]
  refine ⟨fun c' e hc' => h.numbered c' e (howns hc'), fun e he => ?_, fun key' e hkey => ?_,
    fun c₁ c₂ e h₁ h₂ => h.unique c₁ c₂ e (howns h₁) (howns h₂), fun e result he => ?_, fun c' => ?_⟩
  · have hne : e ≠ entry := by
      rintro rfl
      exact absurd (h.numbered c e howned) (Nat.not_lt.2 he)
    exact ⟨(hended e hne).trans (h.unborn e he).1, (hslot e hne).trans (h.unborn e he).2⟩
  · obtain ⟨owner, howner⟩ := h.mapped key' e hkey
    exact ⟨owner, hholds howner⟩
  · rcases eq_or_ne e entry with rfl | hne
    · exact hslots result he
    · exact (hended e hne).trans (h.slots e result ((hslot e hne).symm.trans he))
  · rw [hcalls]
    rcases eq_or_ne c' c with rfl | hne
    · rwa [goes_calls_self]
    · rw [goes_calls_ne hne]
      refine (h.fits c').mono (fun e he => hended e ?_) hallEnded hallSlot id fun e _ hatt => ?_
      · rintro rfl
        exact hne (h.unique c' c e (CallPhase.owns_of_runs he) howned)
      · exact hatt.imp (fun ⟨owner, key', howner⟩ => ⟨owner, key', hholds howner⟩) fun ⟨result, hr⟩ =>
          ⟨result, hallSlot e result hr⟩

/-- a call becomes the owner of a new entry -/
theorem Inv.begin (h : Inv s) {key : Option κ} {inFlight : κ → Option ℕ} (hc : s.calls c = .outside)
    (hmap : ∀ key' entry, inFlight key' = some entry →
      s.inFlight key' = some entry ∨ (key = some key' ∧ entry = s.next)) :
    Inv { s.goes c (.transferring key s.next) with inFlight, next := s.next + 1 } := by
  have hnone : (s.calls c).owns = none := by
    rw [hc]
    rfl
  have hholds : ∀ {c' key' e}, (s.calls c').holds = some (key', e) →
      ((s.goes c (.transferring key s.next)).calls c').holds = some (key', e) := by
    intro c' key' e hc'
    rcases eq_or_ne c' c with rfl | hne
    · rw [CallPhase.owns_of_holds hc'] at hnone
      cases hnone
    · rwa [goes_calls_ne hne]
  have howns : ∀ {c' e}, ((s.goes c (.transferring key s.next)).calls c').owns = some e →
      (c' = c ∧ e = s.next) ∨ (c' ≠ c ∧ (s.calls c').owns = some e) := by
    intro c' e hc'
    rcases eq_or_ne c' c with rfl | hne
    · rw [goes_calls_self] at hc'
      exact Or.inl ⟨rfl, (Option.some.inj hc').symm⟩
    · exact Or.inr ⟨hne, by rwa [goes_calls_ne hne] at hc'⟩
  refine ⟨fun c' e hc' => ?_, fun e he => h.unborn e (Nat.le_of_succ_le he), fun key' e hkey => ?_,
    fun c₁ c₂ e h₁ h₂ => ?_, h.slots, fun c' => ?_⟩
  · rcases howns hc' with ⟨-, rfl⟩ | ⟨-, hc'⟩
    · exact Nat.lt_succ_self _
    · exact Nat.lt_succ_of_lt (h.numbered c' e hc')
  · rcases hmap key' e hkey with hkey | ⟨rfl, rfl⟩
    · obtain ⟨owner, howner⟩ := h.mapped key' e hkey
      exact ⟨owner, hholds howner⟩
    · refine ⟨c, ?_⟩
      show ((s.goes c (.transferring (some key') s.next)).calls c).holds = _
      rw [goes_calls_self]
      rfl
  · rcases howns h₁ with ⟨hc₁, he₁⟩ | ⟨-, hold₁⟩
    · rcases howns h₂ with ⟨hc₂, -⟩ | ⟨-, hold₂⟩
      · rw [hc₁, hc₂]
      · exact absurd (h.numbered c₂ e hold₂) (by rw [he₁]; exact lt_irrefl _)
    · rcases howns h₂ with ⟨-, he₂⟩ | ⟨-, hold₂⟩
      · exact absurd (h.numbered c₁ e hold₁) (by rw [he₂]; exact lt_irrefl _)
      · exact h.unique c₁ c₂ e hold₁ hold₂
  · show Fits _ c' ((s.goes c (.transferring key s.next)).calls c')
    rcases eq_or_ne c' c with rfl | hne
    · rw [goes_calls_self]
      exact (h.unborn s.next le_rfl).1
    · rw [goes_calls_ne hne]
      exact (h.fits c').mono (fun _ _ => rfl) (fun _ _ => id) (fun _ _ => id) id fun e _ =>
        Or.imp_left fun ⟨owner, key', howner⟩ => ⟨owner, key', hholds howner⟩

/-- an owner returns, and nothing in the map leads to its entry any more -/
theorem Inv.leave (h : Inv s) {entry : ℕ} {result : FetchResult ρ ε} {inFlight : κ → Option ℕ}
    {ended : ℕ → Option (FetchResult ρ ε)} (hc : (s.calls c).owns = some entry)
    (hmap : ∀ key' e, inFlight key' = some e → s.inFlight key' = some e ∧ (s.calls c).holds ≠ some (key', e))
    (hended : ∀ e, e ≠ entry → ended e = s.ended e) (hresult : ended entry = some result)
    (hkept : ∀ r, s.ended entry = some r → r = result)
    (hslot : (∃ key, (s.calls c).holds = some (key, entry)) → s.slot entry = some result) :
    Inv { s.goes c (.returned entry result) with inFlight, ended } := by
  have howns : ∀ {c' e}, ((s.goes c (.returned entry result)).calls c').owns = some e →
      c' ≠ c ∧ (s.calls c').owns = some e := by
    intro c' e hc'
    rcases eq_or_ne c' c with rfl | hne
    · rw [goes_calls_self] at hc'
      cases hc'
    · exact ⟨hne, by rwa [goes_calls_ne hne] at hc'⟩
  have hallEnded : ∀ e r, s.ended e = some r → ended e = some r := by
    intro e r he
    rcases eq_or_ne e entry with rfl | hne
    · rw [hkept r he, hresult]
    · rwa [hended e hne]
  refine ⟨fun c' e hc' => h.numbered c' e (howns hc').2, fun e he => ?_, fun key' e hkey => ?_,
    fun c₁ c₂ e h₁ h₂ => h.unique c₁ c₂ e (howns h₁).2 (howns h₂).2, fun e r he => hallEnded e r (h.slots e r he),
    fun c' => ?_⟩
  · have hne : e ≠ entry := by
      rintro rfl
      exact absurd (h.numbered c e hc) (Nat.not_lt.2 he)
    exact ⟨(hended e hne).trans (h.unborn e he).1, (h.unborn e he).2⟩
  · obtain ⟨hkey, hnot⟩ := hmap key' e hkey
    obtain ⟨owner, howner⟩ := h.mapped key' e hkey
    have hne : owner ≠ c := by
      rintro rfl
      exact hnot howner
    exact ⟨owner, by rwa [← goes_calls_ne hne] at howner⟩
  · show Fits _ c' ((s.goes c (.returned entry result)).calls c')
    rcases eq_or_ne c' c with rfl | hne
    · rw [goes_calls_self]
      exact Or.inl hresult
    · rw [goes_calls_ne hne]
      refine (h.fits c').mono (fun e he => hended e ?_) hallEnded (fun _ _ => id) id fun e _ hatt => ?_
      · rintro rfl
        exact hne (h.unique c' c e (CallPhase.owns_of_runs he) hc)
      · rcases hatt with ⟨owner, key', howner⟩ | hslotted
        · rcases eq_or_ne owner c with rfl | hother
          · obtain rfl : entry = e := Option.some.inj (hc.symm.trans (CallPhase.owns_of_holds howner))
            exact Or.inr ⟨result, hslot ⟨key', howner⟩⟩
          · exact Or.inl ⟨owner, key', by rwa [← goes_calls_ne hother] at howner⟩
        · exact Or.inr hslotted

section Step

variable [DecidableEq κ] {act : Act κ ρ ε}

theorem Step.inv (h : Inv s) (hstep : Step s act t) : Inv t := by
  cases hstep with
  | alone hc => exact h.begin hc fun _ _ hkey => Or.inl hkey
  | @lead c key hc _ =>
    refine h.begin hc fun key' entry hkey' => ?_
    rcases eq_or_ne key' key with rfl | hne
    · rw [Function.update_self] at hkey'
      exact Or.inr ⟨rfl, (Option.some.inj hkey').symm⟩
    · exact Or.inl (by rwa [Function.update_of_ne hne] at hkey')
  | @join c key entry hc hkey =>
    obtain ⟨owner, howner⟩ := h.mapped key entry hkey
    exact h.goes (by rw [hc]; rfl) rfl (Or.inl ⟨owner, key, howner⟩)
  | @cancel c =>
    refine { h with fits := fun c' => ?_ }
    exact (h.fits c').mono (fun _ _ => rfl) (fun _ _ => id) (fun _ _ => id) Or.inr fun _ _ => id
  | @transfer c key entry result hc hresult =>
    have hnone : s.ended entry = none := by
      have hfits := h.fits c
      rwa [hc] at hfits
    refine h.proceed (by rw [hc]; rfl) rfl (fun e he => Function.update_of_ne he ..)
      (fun _ _ => rfl) (fun r hr => ?_) (fun _ => id) (fun r hr => ?_) ⟨Function.update_self .., hresult⟩
    · rw [hnone] at hr
      cases hr
    · have hended := h.slots entry r hr
      rw [hnone] at hended
      cases hended
  | @transferAlone c entry result hc hresult =>
    have hnone : s.ended entry = none := by
      have hfits := h.fits c
      rwa [hc] at hfits
    have hholds : ∀ key' e, (s.calls c).holds ≠ some (key', e) := by
      rw [hc]
      exact fun _ _ => Option.some_ne_none _ ∘ Eq.symm
    refine h.leave (by rw [hc]; rfl) (fun key' e hkey => ⟨hkey, hholds key' e⟩) (fun e he => Function.update_of_ne he ..)
      (Function.update_self ..) (fun r hr => ?_) fun ⟨key', hkey⟩ => absurd hkey (hholds key' entry)
    rw [hnone] at hr
    cases hr
  | @store c key entry result hc =>
    have hfits := h.fits c
    rw [hc] at hfits
    refine h.proceed (by rw [hc]; rfl) rfl (fun _ _ => rfl)
      (fun e he => Function.update_of_ne he ..) (fun _ => id) (fun r hr => ?_) (fun r hr => ?_)
      ⟨hfits.1, Function.update_self .., hfits.2⟩
    · rw [Function.update_self, ← hfits.1, h.slots entry r hr]
    · rw [Function.update_self] at hr
      exact hfits.1.trans hr
  | @remove c key entry result hc =>
    have hfits := h.fits c
    rw [hc] at hfits
    have hholds : (s.calls c).holds = some (key, entry) := by
      rw [hc]
      rfl
    refine h.leave (CallPhase.owns_of_holds hholds) (fun key' e hkey => ?_) (fun _ _ => rfl) hfits.1
      (fun r hr => Option.some.inj (hr.symm.trans hfits.1)) fun _ => hfits.2.1
    rw [hholds]
    split at hkey
    · next hmapped =>
      rcases eq_or_ne key' key with rfl | hne
      · rw [Function.update_self] at hkey
        cases hkey
      · rw [Function.update_of_ne hne] at hkey
        exact ⟨hkey, fun heq => hne (Prod.mk.inj (Option.some.inj heq)).1.symm⟩
    · next hmapped =>
      refine ⟨hkey, fun heq => hmapped ?_⟩
      obtain ⟨rfl, rfl⟩ := Prod.mk.inj (Option.some.inj heq)
      exact hkey
  | @giveUp c entry hc hcancelled => exact h.goes (by rw [hc]; rfl) rfl (Or.inr ⟨rfl, hcancelled⟩)
  | @goOn c entry hc hcancelled =>
    have hfits := h.fits c
    rw [hc] at hfits
    exact h.goes (by rw [hc]; rfl) rfl hfits
  | @find c entry result hc hslot =>
    refine h.goes ?_ rfl (Or.inl (h.slots entry result hslot))
    rcases hc with hc | hc <;> rw [hc] <;> rfl
  | @sleep c entry hc hslot =>
    have hfits := h.fits c
    rw [hc] at hfits
    exact h.goes (by rw [hc]; rfl) rfl hfits
  | @again c entry hc hslot =>
    have hfits := h.fits c
    rw [hc] at hfits
    exact h.goes (by rw [hc]; rfl) rfl hfits

theorem Run.inv {Allowed : Coalescer κ ρ ε → Act κ ρ ε → Prop} {acts : List (Act κ ρ ε)} (hs : Inv s)
    (hrun : Run Allowed s acts t) : Inv t := by
  induction hrun with
  | nil => exact hs
  | snoc _ _ hstep ih => exact hstep.inv ih

end Step

end Coalescer

end Render.Net
