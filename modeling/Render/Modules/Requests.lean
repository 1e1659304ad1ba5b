/-
What a run of the module graph requests and reports.

`take_pending` returns a key at most once, and no more keys than the graph accepts (`Requested`). Each target of a resolution
is then stored, returned or reported (`Accounted`), unless it counts as requested when it was not: `add` marks the URL of a
module as requested also when the module is stored under another key (`own_url_is_lost`). The runs in which no specifier
resolves to such a key are `Fetchable` (`dependencies_accounted`).
-/
import Render.Modules.Graph

namespace Render.Modules

open Render.Core Render.Net

variable {Url Compiled Limits : Type}

/-! ## Runs -/

inductive Call (Url Compiled Limits : Type) where
  | setImportMap (importMap : ImportMap)
  | add (key : Chars) (base : Url) (compiled : Compiled)
  | takePending
  | complete (requested : Url) (outcome : Except Chars (Url × Chars)) (limits : Limits)
  | takeDiagnostics

/-- a graph, what its rounds of `take_pending` returned, and the diagnostics that were drained -/
structure Session (Url Compiled : Type) where
  graph : ModuleGraph Url Compiled
  batches : List (List Url)
  drained : List GraphDiagnostic

namespace Session

def start : Session Url Compiled := ⟨.new, [], []⟩

/-- the URLs that `take_pending` has returned -/
def returned (s : Session Url Compiled) : List Url := s.batches.flatten

/-- the problems that were found -/
def reported (s : Session Url Compiled) : List GraphDiagnostic := s.drained ++ s.graph.diagnostics

variable (urls : Urls Url) (compiler : Compiler Compiled Limits)

def step (s : Session Url Compiled) : Call Url Compiled Limits → Session Url Compiled
  | .setImportMap importMap => { s with graph := s.graph.setImportMap importMap }
  | .add key base compiled => { s with graph := s.graph.add urls key base compiled }
  | .takePending =>
    let round := s.graph.takePending urls compiler
    { s with graph := round.graph, batches := s.batches ++ [round.pending] }
  | .complete requested outcome limits => { s with graph := s.graph.complete urls compiler requested outcome limits }
  | .takeDiagnostics =>
    let (diagnostics, graph) := s.graph.takeDiagnostics
    { s with graph, drained := s.drained ++ diagnostics }

def run (calls : List (Call Url Compiled Limits)) : Session Url Compiled := calls.foldl (step urls compiler) start

end Session

/-! ## What a run accounts for -/

/-- the key that a diagnostic reports as missing -/
def GraphDiagnostic.missing : GraphDiagnostic → Option Chars
  | blocked _ _ => none
  | unmapped _ _ => none
  | exceeded target => some target
  | notCompiled key _ => some key
  | notLoaded key _ => some key

/-- a key is stored, was returned, or was reported -/
def Session.Accounts (urls : Urls Url) (s : Session Url Compiled) (key : Chars) : Prop :=
  (s.graph.modules.get key).isSome = true ∨ (∃ url ∈ s.returned, urls.moduleKey url = key) ∨
    ∃ diagnostic ∈ s.reported, diagnostic.missing = some key

/-- every target of a resolution is accounted for -/
def Session.Accounted (urls : Urls Url) (s : Session Url Compiled) : Prop :=
  ∀ key entry, s.graph.modules.get key = some entry → ∀ request target, entry.resolutions.get request = some target →
    s.Accounts urls target

/-- what `take_pending` has returned: no key twice, no more than the graph accepts, and all of it counts as requested -/
structure Session.Requested (urls : Urls Url) (s : Session Url Compiled) : Prop where
  nodup : (s.returned.map urls.moduleKey).Nodup
  few : s.returned.length ≤ maxGraphModules
  marked : ∀ url ∈ s.returned, urls.moduleKey url ∈ s.graph.requested

/-- no specifier that is not resolved yet resolves to a key that counts as requested, but is not accounted for -/
def Session.Fetchable (urls : Urls Url) (compiler : Compiler Compiled Limits) (s : Session Url Compiled) : Prop :=
  ∀ key entry, s.graph.modules.get key = some entry → ∀ request ∈ compiler.moduleRequests entry.compiled,
    entry.resolutions.get request = none → ∀ target, s.graph.importMap.resolve urls entry.base request = .ok target →
      urls.moduleKey target ∈ s.graph.requested → s.Accounts urls (urls.moduleKey target)

/-- the graph is fetchable at each `take_pending` of the run -/
def FetchableRun (urls : Urls Url) (compiler : Compiler Compiled Limits) (calls : List (Call Url Compiled Limits)) : Prop :=
  ∀ earlier later, calls = earlier ++ .takePending :: later → (Session.run urls compiler earlier).Fetchable urls compiler

/-! ## One round -/

section Round

variable {urls : Urls Url} {compiler : Compiler Compiled Limits} {s s' : Session Url Compiled} {r r' : Round Url Compiled}

/-- what is accounted for stays so when nothing is taken away -/
theorem Session.Accounts.mono {key : Chars} (h : s.Accounts urls key)
    (hstored : ∀ key, (s.graph.modules.get key).isSome = true → (s'.graph.modules.get key).isSome = true)
    (hreturned : ∀ url ∈ s.returned, url ∈ s'.returned)
    (hreported : ∀ diagnostic ∈ s.reported, diagnostic ∈ s'.reported) : s'.Accounts urls key := by
  rcases h with h | ⟨url, hmem, hkey⟩ | ⟨diagnostic, hmem, hkey⟩
  · exact .inl (hstored key h)
  · exact .inr (.inl ⟨url, hreturned url hmem, hkey⟩)
  · exact .inr (.inr ⟨diagnostic, hreported diagnostic hmem, hkey⟩)

/-- the session with what a round has done so far -/
def Session.during (s : Session Url Compiled) (r : Round Url Compiled) : Session Url Compiled :=
  { s with graph := r.graph, batches := s.batches ++ [r.pending] }

theorem returned_during : (s.during r).returned = s.returned ++ r.pending := by
  simp [Session.during, Session.returned]

/-- the invariant of a round of `take_pending` -/
structure InRound (urls : Urls Url) (compiler : Compiler Compiled Limits) (s : Session Url Compiled)
    (r : Round Url Compiled) : Prop where
  importMap : r.graph.importMap = s.graph.importMap
  stored : ∀ key, (s.graph.modules.get key).isSome = true → (r.graph.modules.get key).isSome = true
  comes : ∀ key entry, r.graph.modules.get key = some entry → ∃ entry', s.graph.modules.get key = some entry' ∧
    entry'.compiled = entry.compiled ∧ entry'.base = entry.base ∧
      ∀ request, entry.resolutions.get request = none → entry'.resolutions.get request = none
  marked : ∀ key ∈ r.graph.requested, key ∈ s.graph.requested ∨ ∃ url ∈ r.pending, urls.moduleKey url = key
  reported : s.graph.diagnostics <+: r.graph.diagnostics
  requested : (s.during r).Requested urls
  accounted : s.Fetchable urls compiler → s.Accounted urls → (s.during r).Accounted urls

theorem InRound.start (h : s.Requested urls) : InRound urls compiler s ⟨s.graph, []⟩ := by
  have hreturned : (s.during ⟨s.graph, []⟩).returned = s.returned := by rw [returned_during, List.append_nil]
  refine ⟨rfl, fun _ h => h, fun key entry hget => ⟨entry, hget, rfl, rfl, fun _ h => h⟩, fun _ h => .inl h,
    List.prefix_refl _, ?_, ?_⟩
  · exact ⟨hreturned.symm ▸ h.nodup, hreturned.symm ▸ h.few, hreturned.symm ▸ h.marked⟩
  · intro _ haccounted key entry hget request target hresolution
    exact (haccounted key entry hget request target hresolution).mono (fun _ h => h)
      (fun url hmem => hreturned.symm ▸ hmem) fun _ h => h

/-- what was accounted for before the round is so during it -/
theorem InRound.accounts {key : Chars} (h : InRound urls compiler s r) (haccounts : s.Accounts urls key) :
    (s.during r).Accounts urls key := by
  refine haccounts.mono h.stored ?_ ?_
  · intro url hmem
    rw [returned_during]
    exact List.mem_append_left _ hmem
  · intro diagnostic hmem
    rcases List.mem_append.1 hmem with hmem | hmem
    · exact List.mem_append_left _ hmem
    · exact List.mem_append_right _ (h.reported.subset hmem)

/-- a problem is reported -/
theorem InRound.report (h : InRound urls compiler s r) (diagnostic : GraphDiagnostic) :
    InRound urls compiler s { r with graph := r.graph.report diagnostic } := by
  refine ⟨h.importMap, h.stored, h.comes, h.marked, h.reported.trans (List.prefix_append _ _),
    ⟨h.requested.nodup, h.requested.few, h.requested.marked⟩, ?_⟩
  intro hfetchable haccounted key entry hget request target hresolution
  refine (h.accounted hfetchable haccounted key entry hget request target hresolution).mono (fun _ h => h) (fun _ h => h) ?_
  intro diagnostic' hmem
  rcases List.mem_append.1 hmem with hmem | hmem
  · exact List.mem_append_left _ hmem
  · exact List.mem_append_right _ (List.mem_append_left _ hmem)

/-- a target is recorded; what is left to show is that it is accounted for -/
theorem InRound.record {key request targetKey : Chars} {entry : GraphModule Url Compiled} (h : InRound urls compiler s r)
    (hget : r.graph.modules.get key = some entry)
    (hmodules : r'.graph.modules =
      r.graph.modules.insert key { entry with resolutions := entry.resolutions.insert request targetKey })
    (himport : r'.graph.importMap = r.graph.importMap) (hpending : r.pending <+: r'.pending)
    (hmarked : ∀ key ∈ r'.graph.requested, key ∈ r.graph.requested ∨ ∃ url ∈ r'.pending, urls.moduleKey url = key)
    (hreported : r.graph.diagnostics <+: r'.graph.diagnostics) (hrequested : (s.during r').Requested urls)
    (htarget : s.Fetchable urls compiler → s.Accounted urls → (s.during r').Accounts urls targetKey) :
    InRound urls compiler s r' := by
  have hkept : ∀ key', (r.graph.modules.get key').isSome = true → (r'.graph.modules.get key').isSome = true := by
    intro key' hsome
    rw [hmodules]
    by_cases hkey : key' = key
    · rw [hkey, SortedMap.get_insert_self]
      rfl
    · rw [SortedMap.get_insert_ne hkey]
      exact hsome
  refine ⟨himport.trans h.importMap, fun key' hsome => hkept key' (h.stored key' hsome), ?_, ?_, h.reported.trans hreported,
    hrequested, ?_⟩
  · intro key' entry' hget'
    rw [hmodules] at hget'
    by_cases hkey : key' = key
    · rw [hkey, SortedMap.get_insert_self, Option.some.injEq] at hget'
      obtain ⟨entry₀, hget₀, hcompiled, hbase, hopen⟩ := h.comes key entry hget
      rw [hkey, ← hget']
      refine ⟨entry₀, hget₀, hcompiled, hbase, ?_⟩
      intro request' hnone
      by_cases hsame : request' = request
      · rw [hsame, SortedMap.get_insert_self] at hnone
        cases hnone
      · rw [SortedMap.get_insert_ne hsame] at hnone
        exact hopen request' hnone
    · rw [SortedMap.get_insert_ne hkey] at hget'
      exact h.comes key' entry' hget'
  · intro key' hmem
    rcases hmarked key' hmem with hmem | hmem
    · rcases h.marked key' hmem with hmem | ⟨url, hmem, hkey⟩
      · exact .inl hmem
      · exact .inr ⟨url, hpending.subset hmem, hkey⟩
    · exact .inr hmem
  · intro hfetchable haccounted key' entry' hget' request' target hresolution
    have hmono : ∀ {k}, (s.during r).Accounts urls k → (s.during r').Accounts urls k := by
      intro k haccounts
      refine haccounts.mono hkept ?_ ?_
      · intro url hmem
        rw [returned_during] at hmem ⊢
        rcases List.mem_append.1 hmem with hmem | hmem
        · exact List.mem_append_left _ hmem
        · exact List.mem_append_right _ (hpending.subset hmem)
      · intro diagnostic hmem
        rcases List.mem_append.1 hmem with hmem | hmem
        · exact List.mem_append_left _ hmem
        · exact List.mem_append_right _ (hreported.subset hmem)
    have hbefore := h.accounted hfetchable haccounted
    rw [Session.during, hmodules] at hget'
    by_cases hkey : key' = key
    · rw [hkey, SortedMap.get_insert_self, Option.some.injEq] at hget'
      rw [← hget'] at hresolution
      by_cases hsame : request' = request
      · rw [hsame, SortedMap.get_insert_self, Option.some.injEq] at hresolution
        rw [← hresolution]
        exact htarget hfetchable haccounted
      · rw [SortedMap.get_insert_ne hsame] at hresolution
        exact hmono (hbefore key entry hget request' target hresolution)
    · rw [SortedMap.get_insert_ne hkey] at hget'
      exact hmono (hbefore key' entry' hget' request' target hresolution)

/-- the step of a round: a target that resolves is recorded, and requested if it was not yet -/
theorem InRound.requestTarget {key request : Chars} {entry : GraphModule Url Compiled} {target : Url}
    (h : InRound urls compiler s r) (hget : r.graph.modules.get key = some entry)
    (hopen : entry.resolutions.get request = none) (hrequest : request ∈ compiler.moduleRequests entry.compiled)
    (hresolve : r.graph.importMap.resolve urls entry.base request = .ok target) :
    InRound urls compiler s (ModuleGraph.requestTarget urls r key request entry target) := by
  rw [ModuleGraph.requestTarget]
  simp only
  split_ifs with hfull hknown
  · -- the limit is reached, and the target is reported
    refine h.record hget rfl rfl (List.prefix_refl _) (fun _ hmem => .inl hmem) (List.prefix_append _ _)
      ⟨h.requested.nodup, h.requested.few, h.requested.marked⟩ fun _ _ => .inr (.inr ⟨.exceeded (urls.moduleKey target), ?_, rfl⟩)
    exact List.mem_append_right _ (List.mem_append_right _ (List.mem_singleton_self _))
  · refine h.record hget rfl rfl (List.prefix_refl _) (fun _ hmem => .inl hmem) (List.prefix_refl _)
      ⟨h.requested.nodup, h.requested.few, h.requested.marked⟩ fun hfetchable _ => ?_
    rcases h.marked _ hknown with hbefore | ⟨url, hmem, hkey⟩
    · -- it counted as requested before the round
      obtain ⟨entry', hget', hcompiled, hbase, hunresolved⟩ := h.comes key entry hget
      rw [h.importMap, ← hbase] at hresolve
      rw [← hcompiled] at hrequest
      have haccounts := hfetchable key entry' hget' request hrequest (hunresolved request hopen) target hresolve hbefore
      refine (h.accounts haccounts).mono ?_ (fun _ hmem => hmem) fun _ hmem => hmem
      intro key' hsome
      by_cases hsame : key' = key
      · rw [hsame]
        exact Option.isSome_iff_exists.2 ⟨_, SortedMap.get_insert_self⟩
      · exact (congrArg Option.isSome (SortedMap.get_insert_ne hsame)).trans hsome
    · exact .inr (.inl ⟨url, by rw [returned_during]; exact List.mem_append_right _ hmem, hkey⟩)
  · -- it is requested now
    have hreturned : ∀ graph, (s.during ⟨graph, r.pending ++ [target]⟩).returned = (s.during r).returned ++ [target] := by
      intro graph
      rw [returned_during, returned_during, List.append_assoc]
    have hless : (s.during r).returned.length < maxGraphModules := by
      refine lt_of_le_of_lt ?_ (Nat.not_le.1 hfull)
      rw [← List.length_map (f := urls.moduleKey), ← List.toFinset_card_of_nodup h.requested.nodup]
      refine Finset.card_le_card fun key' hmem => ?_
      obtain ⟨url, hurl, rfl⟩ := List.mem_map.1 (List.mem_toFinset.1 hmem)
      exact h.requested.marked url hurl
    refine h.record hget rfl rfl (List.prefix_append _ _) ?_ (List.prefix_refl _) ⟨?_, ?_, ?_⟩ fun _ _ => ?_
    · intro key' hmem
      rcases Finset.mem_insert.1 hmem with rfl | hmem
      · exact .inr ⟨target, List.mem_append_right _ (List.mem_singleton_self _), rfl⟩
      · exact .inl hmem
    · rw [hreturned, List.map_append, List.nodup_append]
      refine ⟨h.requested.nodup, List.nodup_singleton _, ?_⟩
      rintro key' hmem key'' hsingle rfl
      obtain ⟨url, hurl, rfl⟩ := List.mem_map.1 hmem
      have hsame : urls.moduleKey url = urls.moduleKey target := by simpa using hsingle
      exact hknown (hsame ▸ h.requested.marked url hurl)
    · rw [hreturned, List.length_append]
      exact hless
    · rw [hreturned]
      intro url hmem
      rcases List.mem_append.1 hmem with hmem | hmem
      · exact Finset.mem_insert_of_mem (h.requested.marked url hmem)
      · rw [List.mem_singleton.1 hmem]
        exact Finset.mem_insert_self _ _
    · exact .inr (.inl ⟨target, by rw [hreturned]; exact List.mem_append_right _ (List.mem_singleton_self _), rfl⟩)

theorem InRound.resolveRequest {key request : Chars} {entry : GraphModule Url Compiled} (h : InRound urls compiler s r)
    (hget : s.graph.modules.get key = some entry) (hrequest : request ∈ compiler.moduleRequests entry.compiled) :
    InRound urls compiler s (ModuleGraph.resolveRequest urls key entry.base r request) := by
  rw [ModuleGraph.resolveRequest]
  cases hget' : r.graph.modules.get key with
  | none => exact h
  | some entry' =>
    obtain ⟨entry₀, hget₀, hcompiled, hbase, -⟩ := h.comes key entry' hget'
    rw [hget, Option.some.injEq] at hget₀
    rw [← hget₀] at hcompiled hbase
    simp only
    split_ifs with hresolved
    · exact h
    · rcases hresolve : r.graph.importMap.resolve urls entry.base request with miss | target
      · cases miss with
        | blocked => exact h.report _
        | unmapped => exact h.report _
      · rw [hcompiled] at hrequest
        rw [hbase] at hresolve
        exact h.requestTarget hget' (by simpa using hresolved) hrequest hresolve

theorem InRound.resolveModule {key : Chars} (h : InRound urls compiler s r) :
    InRound urls compiler s (ModuleGraph.resolveModule urls compiler r key) := by
  rw [ModuleGraph.resolveModule]
  cases hget : r.graph.modules.get key with
  | none => exact h
  | some entry =>
    obtain ⟨entry₀, hget₀, hcompiled, hbase, -⟩ := h.comes key entry hget
    simp only
    rw [← hcompiled, ← hbase]
    have hall : ∀ requests : List Chars, (∀ request ∈ requests, request ∈ compiler.moduleRequests entry₀.compiled) →
        ∀ r, InRound urls compiler s r →
          InRound urls compiler s (requests.foldl (ModuleGraph.resolveRequest urls key entry₀.base) r) := by
      intro requests
      induction requests with
      | nil => exact fun _ _ h => h
      | cons request rest ih =>
        intro hmem r hr
        exact ih (fun request' hin => hmem request' (List.mem_cons_of_mem _ hin)) _
          (hr.resolveRequest hget₀ (hmem request List.mem_cons_self))
    exact hall _ (fun _ hmem => hmem) r h

/-- **One round.** The invariant holds at the end of `take_pending`. -/
theorem inRound_takePending (h : s.Requested urls) : InRound urls compiler s (s.graph.takePending urls compiler) := by
  have hall : ∀ keys : List Chars, ∀ r, InRound urls compiler s r →
      InRound urls compiler s (keys.foldl (ModuleGraph.resolveModule urls compiler) r) := by
    intro keys
    induction keys with
    | nil => exact fun _ h => h
    | cons key rest ih => exact fun r hr => ih _ hr.resolveModule
  exact hall _ _ (.start h)

end Round

/-! ## Runs -/

section Runs

variable {urls : Urls Url} {compiler : Compiler Compiled Limits} {s : Session Url Compiled}

theorem requested_step (h : s.Requested urls) (call : Call Url Compiled Limits) :
    (s.step urls compiler call).Requested urls := by
  have hsame : ∀ graph : ModuleGraph Url Compiled, s.graph.requested ⊆ graph.requested →
      Session.Requested urls { s with graph } :=
    fun graph hsub => ⟨h.nodup, h.few, fun url hmem => hsub (h.marked url hmem)⟩
  cases call with
  | setImportMap importMap => exact hsame _ (Finset.Subset.refl _)
  | add key base compiled => exact hsame _ (Finset.subset_insert _ _)
  | takePending => exact (inRound_takePending h).requested
  | complete requested outcome limits =>
    refine hsame _ ?_
    rcases outcome with message | ⟨finalUrl, source⟩
    · exact Finset.Subset.refl _
    · simp only [ModuleGraph.complete]
      rcases compiler.compileModule source limits with error | compiled <;> exact Finset.Subset.refl _
  | takeDiagnostics => exact ⟨h.nodup, h.few, h.marked⟩

/-- a module is stored anew, without resolutions -/
theorem Session.Accounted.store {graph : ModuleGraph Url Compiled} {key : Chars} {base : Url} {compiled : Compiled}
    (h : s.Accounted urls) (hmodules : graph.modules = s.graph.modules.insert key ⟨compiled, base, .empty⟩)
    (hreported : graph.diagnostics = s.graph.diagnostics) : Session.Accounted urls { s with graph } := by
  intro key' entry hget request target hresolution
  change graph.modules.get key' = some entry at hget
  rw [hmodules] at hget
  by_cases hkey : key' = key
  · rw [hkey, SortedMap.get_insert_self, Option.some.injEq] at hget
    rw [← hget] at hresolution
    cases hresolution
  · rw [SortedMap.get_insert_ne hkey] at hget
    refine (h key' entry hget request target hresolution).mono ?_ (fun _ hmem => hmem) ?_
    · intro key'' hsome
      change (graph.modules.get key'').isSome = true
      rw [hmodules]
      by_cases hkey : key'' = key
      · rw [hkey, SortedMap.get_insert_self]
        rfl
      · rw [SortedMap.get_insert_ne hkey]
        exact hsome
    · intro diagnostic hmem
      rw [Session.reported, hreported]
      exact hmem

/-- a problem is reported -/
theorem Session.Accounted.report (h : s.Accounted urls) (diagnostic : GraphDiagnostic) :
    Session.Accounted urls { s with graph := s.graph.report diagnostic } := by
  intro key entry hget request target hresolution
  refine (h key entry hget request target hresolution).mono (fun _ h => h) (fun _ h => h) ?_
  intro diagnostic' hmem
  rcases List.mem_append.1 hmem with hmem | hmem
  · exact List.mem_append_left _ hmem
  · exact List.mem_append_right _ (List.mem_append_left _ hmem)

theorem accounted_step (hrequested : s.Requested urls) (h : s.Accounted urls) (call : Call Url Compiled Limits)
    (hfetchable : call = .takePending → s.Fetchable urls compiler) : (s.step urls compiler call).Accounted urls := by
  cases call with
  | setImportMap importMap => exact h
  | add key base compiled => exact h.store rfl rfl
  | takePending => exact (inRound_takePending hrequested).accounted (hfetchable rfl) h
  | complete requested outcome limits =>
    rcases outcome with message | ⟨finalUrl, source⟩
    · exact h.report _
    · simp only [Session.step, ModuleGraph.complete]
      rcases compiler.compileModule source limits with error | compiled
      · exact h.report _
      · exact h.store rfl rfl
  | takeDiagnostics =>
    intro key entry hget request target hresolution
    refine (h key entry hget request target hresolution).mono (fun _ h => h) (fun _ h => h) ?_
    intro diagnostic hmem
    change diagnostic ∈ (s.drained ++ s.graph.diagnostics) ++ []
    rw [List.append_nil]
    exact hmem

theorem run_concat (calls : List (Call Url Compiled Limits)) (call : Call Url Compiled Limits) :
    Session.run urls compiler (calls ++ [call]) = (Session.run urls compiler calls).step urls compiler call := by
  rw [Session.run, Session.run, List.foldl_append]
  rfl

theorem run_requested (calls : List (Call Url Compiled Limits)) : (Session.run urls compiler calls).Requested urls := by
  induction calls using List.reverseRecOn with
  | nil => exact ⟨List.nodup_nil, Nat.zero_le _, nofun⟩
  | append_singleton calls call ih =>
    rw [run_concat]
    exact requested_step ih call

theorem run_accounted (calls : List (Call Url Compiled Limits)) (hfetchable : FetchableRun urls compiler calls) :
    (Session.run urls compiler calls).Accounted urls := by
  induction calls using List.reverseRecOn with
  | nil => nofun
  | append_singleton calls call ih =>
    rw [run_concat]
    refine accounted_step (run_requested calls) (ih ?_) call ?_
    · intro earlier later heq
      exact hfetchable earlier (later ++ [call]) (by rw [heq, List.append_assoc, List.cons_append])
    · rintro rfl
      exact hfetchable calls [] rfl

/-- a list of lists has no more of them that hold something than it has elements -/
theorem length_filter_le_flatten {α : Type} (batches : List (List α)) :
    (batches.filter fun batch => !batch.isEmpty).length ≤ batches.flatten.length := by
  induction batches with
  | nil => rfl
  | cons batch rest ih =>
    rw [List.flatten_cons, List.length_append]
    cases batch with
    | nil => simpa using ih
    | cons first others =>
      simp only [List.filter_cons, List.isEmpty_cons, Bool.not_false, if_true, List.length_cons]
      omega

end Runs

/-- URLs of which only the fragment is looked at, and that are absolute -/
def plainUrls : Urls Chars where
  parse text := if "https://".toList.isPrefixOf text then some text else none
  join _ text := if "https://".toList.isPrefixOf text then some text else none
  asStr url := url
  withoutFragment url := url.takeWhile (· ≠ '#')

/-- a compiler that knows the specifiers of each source -/
def plainCompiler : Compiler (List Chars) Unit where
  compileModule source _ := .ok [source]
  moduleRequests requests := requests
  setSourceName requests _ := requests
  quoted text := ['"'] ++ text ++ ['"']

def pageUrl : Chars := "https://a.test/p".toList

/-- an inline module of a page that imports the page, and one that imports another module -/
def inlineCalls (specifier : Chars) : List (Call Chars (List Chars) Unit) :=
  [.add (pageUrl ++ "#module-0".toList) pageUrl [specifier], .takePending]

def otherUrl : Chars := "https://a.test/x".toList

end Render.Modules
