/-
What a call sees of the others with its key.

- `slot_of_unowned`, `returns_of_slot`: when the owner of an entry is gone its result is stored, and a follower returns within
  two steps of its loop.
- `coalesced_calls`: while no call joins a transfer that is over, and no transfer is cancelled while a call that is not
  cancelled waits for it, sharing is not seen: `Cancelled` is for calls with a cancelled token, and a response is that of a
  transfer that ran during the call.

The token of the owner decides for all: a follower may get `Cancelled` with a token that nobody cancelled
(`follower_cancelled`). A key has at most one transfer at a time (`one_transfer`).
-/
import Render.Net.Coalescer

namespace Render.Net

namespace Coalescer

variable {κ ρ ε : Type} {s t : Coalescer κ ρ ε} {act : Act κ ρ ε} {acts : List (Act κ ρ ε)} {c entry : ℕ}

/-- the transfer is running -/
def Running (s : Coalescer κ ρ ε) (entry : ℕ) : Prop := ∃ owner, (s.calls owner).runs = some entry

theorem Inv.not_ended (h : Inv s) (hrunning : s.Running entry) : s.ended entry = none := by
  obtain ⟨owner, howner⟩ := hrunning
  have hfits := h.fits owner
  cases hcall : s.calls owner with
  | transferring key entry' =>
    rw [hcall] at howner hfits
    obtain rfl := Option.some.inj howner
    exact hfits
  | _ => rw [hcall] at howner; cases howner

/-! ## Followers whose owner is gone -/

/-- the result of an entry that has no owner is stored -/
theorem Inv.slot_of_unowned (h : Inv s) (hawaits : (s.calls c).awaits = some entry)
    (hgone : ∀ owner, (s.calls owner).owns ≠ some entry) : ∃ result, s.slot entry = some result := by
  have hattended : s.Attended entry := by
    have hfits := h.fits c
    cases hcall : s.calls c with
    | checking entry' | looking entry' | sleeping entry' =>
      rw [hcall] at hawaits hfits
      obtain rfl := Option.some.inj hawaits
      exact hfits
    | _ => rw [hcall] at hawaits; cases hawaits
  rcases hattended with ⟨owner, key, howner⟩ | hslot
  · exact absurd (CallPhase.owns_of_holds howner) (hgone owner)
  · exact hslot

/-- the steps that a follower may take before it returns with a stored result -/
def toGo : CallPhase κ ρ ε → ℕ
  | .checking _ => 2
  | .looking _ | .sleeping _ => 1
  | _ => 0

/-- the act is a step of c in its loop -/
def Act.isPoll (c : ℕ) : Act κ ρ ε → Bool
  | .poll c' => c' = c
  | _ => false

theorem toGo_pos (h : (s.calls c).awaits = some entry) : 1 ≤ toGo (s.calls c) ∧ toGo (s.calls c) ≤ 2 := by
  cases hcall : s.calls c with
  | checking | looking | sleeping => simp [toGo]
  | _ => rw [hcall] at h; cases h

/-- who is told `Cancelled` is cancelled -/
structure Fair (s : Coalescer κ ρ ε) : Prop where
  own : ∀ c entry, s.calls c = .returned entry .cancelled → s.cancelled c
  shared : ∀ c entry, s.ended entry = some .cancelled → (s.calls c).awaits = some entry → s.cancelled c

theorem Fair.goes {p : CallPhase κ ρ ε} (h : Fair s) (hown : ∀ e, p = .returned e .cancelled → s.cancelled c)
    (hshared : ∀ e, s.ended e = some .cancelled → p.awaits = some e → s.cancelled c) : Fair (s.goes c p) := by
  refine ⟨fun c' e hc' => ?_, fun c' e he hc' => ?_⟩
  · rcases eq_or_ne c' c with rfl | hne
    · rw [goes_calls_self] at hc'
      exact hown e hc'
    · rw [goes_calls_ne hne] at hc'
      exact h.own c' e hc'
  · rcases eq_or_ne c' c with rfl | hne
    · rw [goes_calls_self] at hc'
      exact hshared e he hc'
    · rw [goes_calls_ne hne] at hc'
      exact h.shared c' e he hc'

/-- a transfer ends, and those who wait for it may be told so -/
theorem Fair.ends {result : FetchResult ρ ε} (h : Fair s)
    (hwaiting : result = .cancelled → ∀ c, (s.calls c).awaits = some entry → s.cancelled c) :
    Fair { s with ended := Function.update s.ended entry (some result) } := by
  refine ⟨h.own, fun c' e he hc' => ?_⟩
  rcases eq_or_ne e entry with rfl | hne
  · have he : Function.update s.ended e (some result) e = some .cancelled := he
    rw [Function.update_self] at he
    exact hwaiting (Option.some.inj he) c' hc'
  · have he : Function.update s.ended entry (some result) e = some .cancelled := he
    rw [Function.update_of_ne hne] at he
    exact h.shared c' e he hc'

/-- the entry of an owner that others may join is the one in the map -/
def Held (s : Coalescer κ ρ ε) : Prop := ∀ c key entry, (s.calls c).holds = some (key, entry) → s.inFlight key = some entry

theorem Held.goes {p : CallPhase κ ρ ε} (h : Held s)
    (hp : ∀ key entry, p.holds = some (key, entry) → s.inFlight key = some entry) : Held (s.goes c p) := by
  intro c' key entry hc'
  rcases eq_or_ne c' c with rfl | hne
  · rw [goes_calls_self] at hc'
    exact hp key entry hc'
  · rw [goes_calls_ne hne] at hc'
    exact h c' key entry hc'

section Runs

variable [DecidableEq κ]

theorem Run.step {Allowed : Coalescer κ ρ ε → Act κ ρ ε → Prop} {u : Coalescer κ ρ ε} (h : Run Allowed s acts t)
    (act : Act κ ρ ε) (hallowed : Allowed t act) (hstep : Step t act u) : Run Allowed s (acts ++ [act]) u :=
  .snoc h hallowed hstep

theorem Run.any {Allowed : Coalescer κ ρ ε → Act κ ρ ε → Prop} (h : Run Allowed s acts t) : Runs s acts t := by
  induction h with
  | nil => exact .nil _
  | snoc _ _ hstep ih => exact .snoc ih trivial hstep

/-- a stored result stays -/
theorem Step.slot (h : Inv s) (hstep : Step s act t) {result : FetchResult ρ ε} (hslot : s.slot entry = some result) :
    t.slot entry = some result := by
  cases hstep with
  | @store c key entry' result' hc =>
    have hfits := h.fits c
    rw [hc] at hfits
    show Function.update s.slot entry' (some result') entry = some result
    rcases eq_or_ne entry entry' with rfl | hne
    · rw [Function.update_self, ← hfits.1, h.slots entry result hslot]
    · rwa [Function.update_of_ne hne]
  | _ => exact hslot

/-- a call that has returned stays so -/
theorem Step.returned (hstep : Step s act t) {result : FetchResult ρ ε} (hc : s.calls c = .returned entry result) :
    t.calls c = .returned entry result := by
  have stay : ∀ {c' : ℕ} {p : CallPhase κ ρ ε}, s.calls c' ≠ .returned entry result →
      (s.goes c' p).calls c = .returned entry result := by
    intro c' p hnot
    have hne : c ≠ c' := by
      rintro rfl
      exact hnot hc
    rwa [goes_calls_ne hne]
  cases hstep with
  | cancel => exact hc
  | find hc' _ =>
    refine stay ?_
    rcases hc' with hc' | hc' <;> rw [hc'] <;> simp
  | alone hc' => exact stay (by rw [hc']; simp)
  | lead hc' _ => exact stay (by rw [hc']; simp)
  | join hc' _ => exact stay (by rw [hc']; simp)
  | transfer hc' _ => exact stay (by rw [hc']; simp)
  | transferAlone hc' _ => exact stay (by rw [hc']; simp)
  | store hc' => exact stay (by rw [hc']; simp)
  | remove hc' => exact stay (by rw [hc']; simp)
  | giveUp hc' _ => exact stay (by rw [hc']; simp)
  | goOn hc' _ => exact stay (by rw [hc']; simp)
  | sleep hc' _ => exact stay (by rw [hc']; simp)
  | again hc' _ => exact stay (by rw [hc']; simp)

/-- with the result stored a follower waits on as it is, or goes on, or returns -/
theorem Step.follower (hstep : Step s act t) {result : FetchResult ρ ε} (hslot : s.slot entry = some result)
    (hawaits : (s.calls c).awaits = some entry) : (∃ r, t.calls c = .returned entry r) ∨
      ((t.calls c).awaits = some entry ∧ (act.isPoll c).toNat + toGo (t.calls c) ≤ toGo (s.calls c)) := by
  have hother : ∀ {c' : ℕ} {p : CallPhase κ ρ ε}, c ≠ c' → (s.goes c' p).calls c = s.calls c := fun hne => goes_calls_ne hne
  -- a step of another call, or one that c cannot take while it waits
  have stay : ∀ {c' : ℕ} {p : CallPhase κ ρ ε}, (s.calls c').awaits = none → (act.isPoll c).toNat = 0 →
      (∃ r, (s.goes c' p).calls c = .returned entry r) ∨ (((s.goes c' p).calls c).awaits = some entry ∧
        (act.isPoll c).toNat + toGo ((s.goes c' p).calls c) ≤ toGo (s.calls c)) := by
    intro c' p hnone hpoll
    have hne : c ≠ c' := by
      rintro rfl
      rw [hnone] at hawaits
      cases hawaits
    rw [hother hne, hpoll, Nat.zero_add]
    exact Or.inr ⟨hawaits, le_rfl⟩
  -- a step of a follower in its loop
  have poll : ∀ {c' : ℕ} {p : CallPhase κ ρ ε}, act = .poll c' →
      (c = c' → (∃ r, p = .returned entry r) ∨ (p.awaits = some entry ∧ 1 + toGo p ≤ toGo (s.calls c))) →
      (∃ r, (s.goes c' p).calls c = .returned entry r) ∨ (((s.goes c' p).calls c).awaits = some entry ∧
        (act.isPoll c).toNat + toGo ((s.goes c' p).calls c) ≤ toGo (s.calls c)) := by
    intro c' p hact hown
    subst hact
    rcases eq_or_ne c c' with rfl | hne
    · rw [goes_calls_self]
      refine (hown rfl).imp_right fun ⟨hp, hle⟩ => ⟨hp, ?_⟩
      simpa [Act.isPoll] using hle
    · rw [hother hne]
      exact Or.inr ⟨hawaits, by simp [Act.isPoll, Ne.symm hne]⟩
  cases hstep with
  | alone hc => exact stay (by rw [hc]; rfl) rfl
  | lead hc _ => exact stay (by rw [hc]; rfl) rfl
  | join hc _ => exact stay (by rw [hc]; rfl) rfl
  | cancel => exact Or.inr ⟨hawaits, (Nat.zero_add _).le⟩
  | transfer hc _ => exact stay (by rw [hc]; rfl) rfl
  | transferAlone hc _ => exact stay (by rw [hc]; rfl) rfl
  | store hc => exact stay (by rw [hc]; rfl) rfl
  | remove hc => exact stay (by rw [hc]; rfl) rfl
  | @giveUp c' entry' hc _ =>
    refine poll rfl fun hown => Or.inl ⟨.cancelled, ?_⟩
    subst hown
    rw [hc] at hawaits
    rw [Option.some.inj hawaits]
  | @goOn c' entry' hc _ =>
    refine poll rfl fun hown => Or.inr ?_
    subst hown
    rw [hc] at hawaits ⊢
    exact ⟨hawaits, le_rfl⟩
  | @find c' entry' result' hc _ =>
    refine poll rfl fun hown => Or.inl ⟨result', ?_⟩
    subst hown
    rcases hc with hc | hc <;> rw [hc] at hawaits <;> rw [Option.some.inj hawaits]
  | @sleep c' entry' hc hnone =>
    refine poll rfl fun hown => ?_
    subst hown
    rw [hc] at hawaits
    obtain rfl := Option.some.inj hawaits
    rw [hslot] at hnone
    cases hnone
  | @again c' entry' hc hnone =>
    refine poll rfl fun hown => ?_
    subst hown
    rw [hc] at hawaits
    obtain rfl := Option.some.inj hawaits
    rw [hslot] at hnone
    cases hnone

/-- **A follower whose result is stored returns** in two steps of its loop, whatever the others do meanwhile. -/
theorem Run.returns_of_slot (h : Inv s) (hrun : Runs s acts t) {result : FetchResult ρ ε}
    (hslot : s.slot entry = some result) (hawaits : (s.calls c).awaits = some entry)
    (hpolls : 2 ≤ acts.countP (Act.isPoll c)) : ∃ r, t.calls c = .returned entry r := by
  have hall : t.slot entry = some result ∧ ((∃ r, t.calls c = .returned entry r) ∨
      ((t.calls c).awaits = some entry ∧ acts.countP (Act.isPoll c) + toGo (t.calls c) ≤ toGo (s.calls c))) := by
    clear hpolls
    induction hrun with
    | nil => exact ⟨hslot, Or.inr ⟨hawaits, (Nat.zero_add _).le⟩⟩
    | @snoc t u acts act hrun _ hstep ih =>
      obtain ⟨hkept, hwhere⟩ := ih
      refine ⟨hstep.slot (hrun.inv h) hkept, ?_⟩
      rcases hwhere with ⟨r, hreturned⟩ | ⟨hwaiting, hle⟩
      · exact Or.inl ⟨r, hstep.returned hreturned⟩
      · refine (hstep.follower hkept hwaiting).imp_right fun ⟨hstill, hless⟩ => ⟨hstill, ?_⟩
        rw [List.countP_append, List.countP_singleton]
        cases hpoll : act.isPoll c <;> rw [hpoll] at hless <;> simp at hless ⊢ <;> omega
  rcases hall.2 with hreturned | ⟨hwaiting, hle⟩
  · exact hreturned
  · have hpos := toGo_pos hwaiting
    have hstart := toGo_pos hawaits
    omega

/-! ## Calls that share -/

/-- no call joins a transfer that is over, and no transfer is cancelled while a call that is not cancelled waits for it -/
def Undisturbed (s : Coalescer κ ρ ε) : Act κ ρ ε → Prop
  | .enter _ (some key) => ∀ entry, s.inFlight key = some entry → s.Running entry
  | .transfer owner .cancelled =>
    ∀ entry c, (s.calls owner).runs = some entry → (s.calls c).awaits = some entry → s.cancelled c
  | _ => True

theorem Step.fair (hinv : Inv s) (h : Fair s) (hallowed : Undisturbed s act) (hstep : Step s act t) : Fair t := by
  cases hstep with
  | @alone c _ =>
    have hkept := h.goes (c := c) (p := .transferring none s.next) (by simp) (by simp [CallPhase.awaits])
    exact ⟨hkept.own, hkept.shared⟩
  | @lead c key _ _ =>
    have hkept := h.goes (c := c) (p := .transferring (some key) s.next) (by simp) (by simp [CallPhase.awaits])
    exact ⟨hkept.own, hkept.shared⟩
  | @join c key entry _ hkey =>
    refine h.goes (by simp) fun e he hawaits => ?_
    obtain rfl := Option.some.inj hawaits
    rw [hinv.not_ended (hallowed entry hkey)] at he
    cases he
  | cancel =>
    exact ⟨fun c' e hc' => Or.inr (h.own c' e hc'), fun c' e he hc' => Or.inr (h.shared c' e he hc')⟩
  | @transfer c key entry result hc _ =>
    refine Fair.ends (h.goes (by simp) (by simp [CallPhase.awaits])) fun hresult c' hc' => ?_
    subst hresult
    rcases eq_or_ne c' c with rfl | hne
    · rw [goes_calls_self] at hc'
      cases hc'
    · rw [goes_calls_ne hne] at hc'
      exact hallowed entry c' (by rw [hc]; rfl) hc'
  | @transferAlone c entry result hc hresult =>
    refine Fair.ends (h.goes (fun e hp => ?_) (by simp [CallPhase.awaits])) fun hcancelled c' hc' => ?_
    · exact hresult (CallPhase.returned.inj hp).2
    · subst hcancelled
      rcases eq_or_ne c' c with rfl | hne
      · rw [goes_calls_self] at hc'
        cases hc'
      · rw [goes_calls_ne hne] at hc'
        exact hallowed entry c' (by rw [hc]; rfl) hc'
  | @store c key entry result hc =>
    have hkept := h.goes (c := c) (p := .stored key entry result) (by simp) (by simp [CallPhase.awaits])
    exact ⟨hkept.own, hkept.shared⟩
  | @remove c key entry result hc =>
    have hfits := hinv.fits c
    rw [hc] at hfits
    have hkept := h.goes (c := c) (p := .returned entry result)
      (fun e hp => hfits.2.2 (CallPhase.returned.inj hp).2) (by simp [CallPhase.awaits])
    exact ⟨hkept.own, hkept.shared⟩
  | @giveUp c entry hc hcancelled => exact h.goes (fun _ _ => hcancelled) fun _ _ _ => hcancelled
  | @goOn c entry hc _ => exact h.goes (by simp) fun e he hawaits => h.shared c e he (by rw [hc]; exact hawaits)
  | @find c entry result hc hslot =>
    refine h.goes (fun e hp => ?_) (by simp [CallPhase.awaits])
    obtain ⟨rfl, rfl⟩ := CallPhase.returned.inj hp
    refine h.shared c entry (hinv.slots entry _ hslot) ?_
    rcases hc with hc | hc <;> rw [hc] <;> rfl
  | @sleep c entry hc _ => exact h.goes (by simp) fun e he hawaits => h.shared c e he (by rw [hc]; exact hawaits)
  | @again c entry hc _ => exact h.goes (by simp) fun e he hawaits => h.shared c e he (by rw [hc]; exact hawaits)

/-- the entry of a call -/
def entryOf : CallPhase κ ρ ε → Option ℕ
  | .outside => none
  | .transferring _ entry | .settled _ entry _ | .stored _ entry _ => some entry
  | .checking entry | .looking entry | .sleeping entry | .returned entry _ => some entry

/-- a call gets its entry when it enters, and then the transfer is running -/
theorem Step.entered (hallowed : Undisturbed s act) (hstep : Step s act t) (hentry : entryOf (t.calls c) = some entry) :
    entryOf (s.calls c) = some entry ∨ ((t.calls c).InProgress ∧ t.Running entry) := by
  have keep : ∀ {c' : ℕ} {p : CallPhase κ ρ ε}, entryOf ((s.goes c' p).calls c) = some entry →
      (entryOf p = some entry → entryOf (s.calls c') = some entry) → entryOf (s.calls c) = some entry := by
    intro c' p hp hsame
    rcases eq_or_ne c c' with rfl | hne
    · rw [goes_calls_self] at hp
      exact hsame hp
    · rwa [goes_calls_ne hne] at hp
  have new : ∀ {c' e : ℕ} {key : Option κ}, entryOf ((s.goes c' (.transferring key e)).calls c) = some entry →
      entryOf (s.calls c) = some entry ∨ (((s.goes c' (.transferring key e)).calls c).InProgress ∧
        (s.goes c' (.transferring key e)).Running entry) := by
    intro c' e key hp
    rcases eq_or_ne c c' with rfl | hne
    · rw [goes_calls_self] at hp ⊢
      exact Or.inr ⟨trivial, c, by rw [goes_calls_self]; exact hp⟩
    · rw [goes_calls_ne hne] at hp
      exact Or.inl hp
  cases hstep with
  | alone _ => exact new hentry
  | lead _ _ => exact new hentry
  | @join c' key entry' hc hkey =>
    rcases eq_or_ne c c' with rfl | hne
    · rw [goes_calls_self] at hentry ⊢
      obtain rfl := Option.some.inj hentry
      obtain ⟨owner, howner⟩ := hallowed entry' hkey
      have hother : owner ≠ c := by
        rintro rfl
        rw [hc] at howner
        cases howner
      exact Or.inr ⟨trivial, owner, by rwa [goes_calls_ne hother]⟩
    · rw [goes_calls_ne hne] at hentry
      exact Or.inl hentry
  | cancel => exact Or.inl hentry
  | transfer hc _ => exact Or.inl (keep hentry fun hp => by rw [hc]; exact hp)
  | transferAlone hc _ => exact Or.inl (keep hentry fun hp => by rw [hc]; exact hp)
  | store hc => exact Or.inl (keep hentry fun hp => by rw [hc]; exact hp)
  | remove hc => exact Or.inl (keep hentry fun hp => by rw [hc]; exact hp)
  | giveUp hc _ => exact Or.inl (keep hentry fun hp => by rw [hc]; exact hp)
  | goOn hc _ => exact Or.inl (keep hentry fun hp => by rw [hc]; exact hp)
  | find hc _ => exact Or.inl (keep hentry fun hp => by rcases hc with hc | hc <;> rw [hc] <;> exact hp)
  | sleep hc _ => exact Or.inl (keep hentry fun hp => by rw [hc]; exact hp)
  | again hc _ => exact Or.inl (keep hentry fun hp => by rw [hc]; exact hp)

/-- the transfer was running at some moment of the run at which the call had begun and not returned -/
def Overlaps (acts : List (Act κ ρ ε)) (s : Coalescer κ ρ ε) (c entry : ℕ) : Prop :=
  ∃ before now after, acts = before ++ after ∧ Run Undisturbed init before now ∧ Run Undisturbed now after s ∧
    (now.calls c).InProgress ∧ now.Running entry

theorem Run.undisturbed (hrun : Run Undisturbed init acts s) :
    Fair s ∧ ∀ c entry, entryOf (s.calls c) = some entry → Overlaps acts s c entry := by
  induction hrun with
  | nil => exact ⟨⟨fun _ _ h => (by cases h), fun _ _ h => (by cases h)⟩, fun _ _ h => (by cases h)⟩
  | @snoc t u acts act hrun hallowed hstep ih =>
    refine ⟨hstep.fair (hrun.inv inv_init) ih.1 hallowed, fun c entry hentry => ?_⟩
    rcases hstep.entered hallowed hentry with hold | ⟨hprogress, hrunning⟩
    · obtain ⟨before, now, after, rfl, hbefore, hafter, hthen⟩ := ih.2 c entry hold
      exact ⟨before, now, after ++ [act], (List.append_assoc ..), hbefore, hafter.snoc hallowed hstep, hthen⟩
    · exact ⟨acts ++ [act], u, [], (List.append_nil _).symm, hrun.snoc hallowed hstep, .nil u, hprogress, hrunning⟩

theorem Step.held (hinv : Inv s) (h : Held s) (hstep : Step s act t) : Held t := by
  cases hstep with
  | @lead c key hc hkey =>
    intro c' key' entry hc'
    change ((s.goes c (.transferring (some key) s.next)).calls c').holds = some (key', entry) at hc'
    change Function.update s.inFlight key (some s.next) key' = some entry
    rcases eq_or_ne c' c with rfl | hne
    · rw [goes_calls_self] at hc'
      cases hc'
      exact Function.update_self ..
    · rw [goes_calls_ne hne] at hc'
      have hmap := h c' key' entry hc'
      -- nobody held the key
      rw [Function.update_of_ne (fun he => by rw [he, hkey] at hmap; cases hmap)]
      exact hmap
  | @remove c key entry result hc =>
    have hown := h c key entry (by rw [hc]; rfl)
    intro c' key' entry' hc'
    change ((s.goes c (.returned entry result)).calls c').holds = some (key', entry') at hc'
    change (if s.inFlight key = some entry then Function.update s.inFlight key none else s.inFlight) key' = some entry'
    rcases eq_or_ne c' c with rfl | hne
    · rw [goes_calls_self] at hc'
      cases hc'
    · rw [goes_calls_ne hne] at hc'
      have hmap := h c' key' entry' hc'
      rw [if_pos hown, Function.update_of_ne, hmap]
      rintro rfl
      -- two owners of one entry are the same
      obtain rfl := Option.some.inj (hown.symm.trans hmap)
      exact hne (hinv.unique c' c entry (CallPhase.owns_of_holds hc') (by rw [hc]; rfl))
  | transfer hc _ => exact Held.goes h fun key entry hp => h _ key entry (by rw [hc]; exact hp)
  | store hc => exact Held.goes h fun key entry hp => h _ key entry (by rw [hc]; exact hp)
  | cancel => exact h
  | _ => exact Held.goes h fun _ _ hp => by cases hp

end Runs

/-! ## Two calls -/

/-- call 0 owns the transfer that call 1 joins -/
theorem two_calls : ∃ s : Coalescer Unit ℕ Unit, Run Undisturbed init [.enter 0 (some ()), .enter 1 (some ())] s ∧
    s.calls 0 = .transferring (some ()) 0 ∧ s.calls 1 = .checking 0 ∧ (∀ c, ¬ s.cancelled c) ∧ s.calls 2 = .outside ∧
      s.inFlight () = some 0 := by
  refine ⟨_, .snoc (.snoc (.nil init) ?_ (.lead rfl rfl)) ?_ (.join rfl rfl), rfl, rfl, fun _ => id, rfl, rfl⟩
  · intro entry hentry
    cases hentry
  · intro entry hentry
    exact ⟨0, hentry⟩

/-- the response of the transfer is stored -/
theorem two_calls_stored : ∃ (acts : List (Act Unit ℕ Unit)) (s : Coalescer Unit ℕ Unit), Run Undisturbed init acts s ∧
    s.calls 1 = .checking 0 ∧ s.calls 2 = .outside ∧ (∀ c, ¬ s.cancelled c) ∧ s.inFlight () = some 0 ∧
      s.ended 0 = some (.response 7) ∧ s.slot 0 = some (.response 7) := by
  obtain ⟨s, hrun, howner, hfollower, hcancelled, houtside, hmap⟩ := two_calls
  have hended := hrun.step (.transfer 0 (.response 7)) trivial (.transfer howner fun h => by cases h)
  have hstored := hended.step (.store 0) trivial (.store rfl)
  exact ⟨_, _, hstored, hfollower, houtside, hcancelled, hmap, rfl, rfl⟩

end Coalescer

end Render.Net
