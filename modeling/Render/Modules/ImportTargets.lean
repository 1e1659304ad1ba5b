/-
Where a specifier that is mapped by a prefix ends up.

HTML asks that the address of a key with a trailing `/` ends in `/` too, and refuses a specifier whose URL leaves the
address. The code does neither: it parses the address and the rest of the specifier as one URL.

- `parse_addresses`: the addresses of a map that `parse` made are URLs without their fragments.
- `prefix_inside_iff`: with URLs read as the URL Standard's parser reads their paths, the URL begins with the address and
  the address ends in `/` exactly if the address is a directory and the rest of the specifier stays in it.
-/
import Mathlib.Data.List.TakeWhile
import Render.Core.Comp
import Render.Modules.ImportScopes
import Render.Net.UrlPaths

namespace Render.Modules

open Render.Core Render.Net Render.Net.UrlPaths

/-! ## The addresses of a map -/

section Addresses

variable {Url : Type} (urls : Urls Url)

/-- every address is a URL without its fragment -/
def Addressed (imports : ScopeImports) : Prop :=
  ∀ key address, (key, some address) ∈ imports.entries → ∃ url, address = urls.moduleKey url

theorem addressed_insert {imports : ScopeImports} (h : Addressed urls imports) {key : Chars} {target : Option Chars}
    (ht : ∀ address, target = some address → ∃ url, address = urls.moduleKey url) :
    Addressed urls (imports.insert key target) := by
  intro key' address hmem
  rcases SortedMap.mem_insert.1 hmem with heq | ⟨hmem, -⟩
  · exact ht address (Prod.mk.inj heq).2.symm
  · exact h key' address hmem

/-- one target more -/
theorem addressed_parseImport {base : Url} {imports imports' : ScopeImports} {entry : Chars × JsonValue}
    (h : Addressed urls imports) (hp : parseImport urls base imports entry = .ok imports') :
    Addressed urls imports' := by
  unfold parseImport at hp
  split at hp
  · cases hp
    exact addressed_insert urls h fun address he => by cases he
  · split at hp
    · next url _ =>
      cases hp
      refine addressed_insert urls h fun address he => ?_
      cases he
      exact ⟨url, rfl⟩
    · cases hp
  · cases hp

theorem addressed_foldlM {base : Url} {members : List (Chars × JsonValue)} {imports imports' : ScopeImports}
    (h : Addressed urls imports) (hp : members.foldlM (parseImport urls base) imports = .ok imports') :
    Addressed urls imports' := by
  induction members generalizing imports with
  | nil =>
    cases hp
    exact h
  | cons entry members ih =>
    rw [List.foldlM_cons] at hp
    obtain ⟨next, hn, hp⟩ := bind_eq_ok.1 hp
    exact ih (addressed_parseImport urls h hn) hp

theorem addressed_empty : Addressed urls .empty := fun _ _ h => absurd h List.not_mem_nil

theorem addressed_parseImports {base : Url} {value : Option JsonValue} {imports : ScopeImports}
    (hp : parseImports urls base value = .ok imports) : Addressed urls imports := by
  unfold parseImports at hp
  split at hp
  · cases hp
    exact addressed_empty urls
  · exact addressed_foldlM urls (addressed_empty urls) hp
  · cases hp

theorem addressed_parseScopes {base : Url} {value : Option JsonValue} {scopes : SortedMap Chars ScopeImports}
    (hp : parseScopes urls base value = .ok scopes) : ∀ scope ∈ scopes.entries, Addressed urls scope.2 := by
  have hfold {members : List (Chars × JsonValue)} : ∀ {scopes scopes' : SortedMap Chars ScopeImports},
      (∀ scope ∈ scopes.entries, Addressed urls scope.2) →
        members.foldlM (parseScope urls base) scopes = .ok scopes' →
          ∀ scope ∈ scopes'.entries, Addressed urls scope.2 := by
    induction members with
    | nil =>
      intro scopes scopes' h hp
      cases hp
      exact h
    | cons entry members ih =>
      intro scopes scopes' h hp
      rw [List.foldlM_cons] at hp
      obtain ⟨next, hn, hp⟩ := bind_eq_ok.1 hp
      refine ih ?_ hp
      unfold parseScope at hn
      split at hn
      · cases hn
      · obtain ⟨imports, hi, hn⟩ := bind_eq_ok.1 hn
        cases hn
        intro scope hmem
        rcases SortedMap.mem_insert.1 hmem with heq | ⟨hmem, -⟩
        · rw [heq]
          exact addressed_parseImports urls hi
        · exact h scope hmem
  unfold parseScopes at hp
  split at hp
  · cases hp
    exact fun scope hmem => absurd hmem List.not_mem_nil
  · exact hfold (fun scope hmem => absurd hmem List.not_mem_nil) hp
  · cases hp

theorem parse_addresses {base : Url} {value : JsonValue} {map : ImportMap} (hp : ImportMap.parse urls base value = .ok map) :
    Addressed urls map.imports ∧ ∀ scope ∈ map.scopes.entries, Addressed urls scope.2 := by
  unfold ImportMap.parse at hp
  split at hp
  · obtain ⟨imports, hi, hp⟩ := bind_eq_ok.1 hp
    obtain ⟨scopes, hs, hp⟩ := bind_eq_ok.1 hp
    cases hp
    exact ⟨addressed_parseImports urls hi, addressed_parseScopes urls hs⟩
  · cases hp

end Addresses

/-! ## What a prefix maps to -/

section Prefixes

variable {Url : Type} (urls : Urls Url) (map : ImportMap) (referrer : Url) (specifier : Chars)

/-- the imports that decide: those of the scope the code looks into, if they map the specifier, or the top level's -/
def decidingImports : ScopeImports :=
  match (prefixScopes map (urls.asStr referrer)).head? with
  | none => map.imports
  | some scope => if (mapped urls referrer specifier scope).isSome then scope.2 else map.imports

/-- a key with a trailing `/` maps the specifier, no key being the specifier itself -/
def MappedByPrefix (imports : ScopeImports) (normalized key address : Chars) : Prop :=
  imports.get normalized = none ∧
    imports.entries.foldl (longestPrefix normalized) none = some (key, some address)

theorem resolveIn_of_prefix {imports : ScopeImports} {normalized key address : Chars}
    (h : MappedByPrefix imports normalized key address) :
    resolveIn urls imports normalized = some (parseTarget urls (address ++ normalized.drop key.length)) := by
  rw [resolveIn, h.1, h.2]

/-- the entry a prefix is looked up in is an entry of the imports -/
theorem longestPrefix_mem (normalized : Chars) (entries : List (Chars × Option Chars))
    (longest : Option (Chars × Option Chars)) {entry : Chars × Option Chars}
    (h : entries.foldl (longestPrefix normalized) longest = some entry) : entry ∈ entries ∨ longest = some entry := by
  induction entries generalizing longest with
  | nil => exact .inr h
  | cons first entries ih =>
    rcases ih _ h with hmem | hlongest
    · exact .inl (List.mem_cons_of_mem _ hmem)
    · unfold longestPrefix at hlongest
      split_ifs at hlongest
      · cases hlongest
        exact .inl List.mem_cons_self
      · exact .inr hlongest

/-- the rest of the specifier is put behind the address -/
theorem resolve_of_prefixed {key address : Chars}
    (h : MappedByPrefix (decidingImports urls map referrer specifier) (normalizeSpecifier urls specifier referrer) key
      address) :
    map.resolve urls referrer specifier =
      parseTarget urls (address ++ (normalizeSpecifier urls specifier referrer).drop key.length) := by
  have hin := resolveIn_of_prefix urls h
  rw [resolve_eq]
  unfold decidingImports at hin
  cases hscopes : prefixScopes map (urls.asStr referrer) with
  | nil =>
    rw [hscopes] at hin
    simp only [decided, List.take_nil, List.findSome?_nil, Option.getD_none, topLevel]
    rw [show resolveIn urls map.imports _ = _ from hin]
  | cons head rest =>
    rw [hscopes] at hin
    simp only [List.head?_cons] at hin
    rw [List.take_succ_cons, List.take_zero]
    cases hmap : mapped urls referrer specifier head with
    | some result =>
      rw [hmap] at hin
      have hsame : resolveIn urls head.2 (normalizeSpecifier urls specifier referrer) = some result := hmap
      rw [Option.isSome_some, if_pos rfl, hsame] at hin
      rw [decided_of_mapped urls map referrer specifier hmap]
      exact Option.some.inj hin
    | none =>
      rw [hmap] at hin
      rw [decided_of_unmapped urls map referrer specifier hmap]
      simp only [Option.isSome_none, Bool.false_eq_true, ↓reduceIte] at hin
      simp only [decided, List.findSome?_nil, Option.getD_none, topLevel]
      rw [hin]

end Prefixes

/-! ## Inside the address -/

/-- URLs are parsed as the URL Standard's machine parses them, and the text of a URL without a fragment is its own
serialized URL -/
structure FollowsStandard {Url F : Type} (machine : Machine F) (urls : Urls Url) : Prop where
  parse : ∀ text url, urls.parse text = some url → machine.parse text = some (urls.asStr url)
  key : ∀ url, machine.Normal (urls.moduleKey url)

/-- the address is a directory's and begins the URL -/
def Inside (address text : Chars) : Prop := address.getLast? = some '/' ∧ address <+: text

/-- **A prefix and what it maps to.** The URL of a specifier that a prefix maps is inside the mapped address if the
address is a directory and the rest of the specifier stays in it; and if the address has settled, so that what follows
cannot reach a host, only then. -/
theorem prefix_inside_iff {Url F : Type} {urls : Urls Url} {machine : Machine F} (hurls : FollowsStandard machine urls)
    {value : JsonValue} {base : Url} {map : ImportMap} (hparse : ImportMap.parse urls base value = .ok map)
    {referrer : Url} {specifier key address : Chars}
    (hpre : MappedByPrefix (decidingImports urls map referrer specifier)
      (normalizeSpecifier urls specifier referrer) key address)
    {url : Url} (hresolve : map.resolve urls referrer specifier = .ok url) :
    (machine.Stays address ((normalizeSpecifier urls specifier referrer).drop key.length) →
      Inside address (urls.asStr url)) ∧
    (machine.Settled address → Inside address (urls.asStr url) →
      machine.Stays address ((normalizeSpecifier urls specifier referrer).drop key.length)) := by
  have hmem : (key, some address) ∈ (decidingImports urls map referrer specifier).entries := by
    rcases longestPrefix_mem _ _ _ hpre.2 with h | h
    · exact h
    · cases h
  have haddressed : Addressed urls (decidingImports urls map referrer specifier) := by
    have hmap := parse_addresses urls hparse
    unfold decidingImports
    split
    · exact hmap.1
    · next scope hscope =>
      split_ifs
      · exact hmap.2 scope (mem_prefixScopes map (List.mem_of_mem_head? hscope))
      · exact hmap.1
  have hnormal : machine.Normal address := by
    obtain ⟨own, rfl⟩ := haddressed key address hmem
    exact hurls.key own
  have hresult : machine.parse (address ++ (normalizeSpecifier urls specifier referrer).drop key.length) =
      some (urls.asStr url) := by
    rw [resolve_of_prefixed urls map referrer specifier hpre, parseTarget] at hresolve
    split at hresolve
    · next target ht =>
      cases hresolve
      exact hurls.parse _ _ ht
    · cases hresolve
  constructor
  · intro hstays
    refine ⟨hstays.1, (machine.begins_iff hnormal hstays.1 ?_ hresult).2 hstays⟩
    intro state hfront
    have := hstays.2
    rw [hfront] at this
    exact this
  · intro hsettled hinside
    exact (machine.begins_iff hnormal hinside.1 hsettled hresult).1 hinside.2

/-! ## A parser for one scheme -/

/-- `https` URLs of plain lower-case texts -/
def plainMachine : Machine Chars where
  start := []
  step before c :=
    if c = '/' ∧ "https://".toList.isPrefixOf before ∧ 8 < before.length then .path ⟨before, true, false, true⟩ false
    else .stay (before ++ [c])
  finish _ := none
  encode _ c := [c]
  encode_path := by
    intro c h1 h2 h3 d hd
    cases List.mem_singleton.1 hd
    exact ⟨h1, h2, h3⟩

/-- a text that is its own serialized URL -/
def isNormal (text : Chars) : Bool :=
  plainMachine.parse text = some text && text.head?.all (fun c => !Machine.isEdge c) &&
    text.all fun c => !Machine.isDropped c

theorem normal_of_isNormal {text : Chars} (h : isNormal text = true) : plainMachine.Normal text := by
  simp only [isNormal, Bool.and_eq_true, decide_eq_true_eq] at h
  refine ⟨h.1.1, ?_, ?_⟩
  · intro c hc
    have := h.1.2
    rw [Option.mem_def.1 hc] at this
    simpa using this
  · intro c hc
    simpa using List.all_eq_true.1 h.2 c hc

def withoutHash (text : Chars) : Chars := text.takeWhile (· ≠ '#')

abbrev PlainUrl : Type := { text : Chars // isNormal (withoutHash text) = true }

def plainParse (text : Chars) : Option PlainUrl :=
  (plainMachine.parse text).bind fun text =>
    if h : isNormal (withoutHash text) = true then some ⟨text, h⟩ else none

theorem withoutHash_idem (text : Chars) : withoutHash (withoutHash text) = withoutHash text :=
  List.takeWhile_idem

/-- URLs that are parsed by that machine -/
def machineUrls : Urls PlainUrl where
  parse := plainParse
  join _ := plainParse
  asStr url := url.1
  withoutFragment url := ⟨withoutHash url.1, by rw [withoutHash_idem]; exact url.2⟩

theorem machineUrls_standard : FollowsStandard plainMachine machineUrls where
  parse text url h := by
    obtain ⟨result, hr, h⟩ := Option.bind_eq_some_iff.1 h
    split_ifs at h with hn
    cases h
    exact hr
  key url := normal_of_isNormal url.2

def siteRoot : PlainUrl := ⟨"https://a.test/".toList, by decide +kernel⟩

/-- one directory under a name -/
def oneDirectory : JsonValue :=
  .object [("imports".toList, .object [("pkg/".toList, .string "https://a.test/pkg/".toList)])]

def oneDirectoryMap : ImportMap := ⟨SortedMap.empty.insert "pkg/".toList (some "https://a.test/pkg/".toList), .empty⟩

theorem oneDirectory_parse : ImportMap.parse machineUrls siteRoot oneDirectory = .ok oneDirectoryMap := by
  rfl

/-- a specifier that climbs out of the directory -/
def climbing : Chars := "pkg/../../x".toList

/-- the code follows it out of the directory -/
theorem climbing_leaves : ¬ ∀ (Url F : Type) (urls : Urls Url) (machine : Machine F) (value : JsonValue) (base : Url)
    (map : ImportMap) (referrer : Url) (specifier key address : Chars) (url : Url), FollowsStandard machine urls →
    ImportMap.parse urls base value = .ok map →
    MappedByPrefix (decidingImports urls map referrer specifier) (normalizeSpecifier urls specifier referrer) key
      address →
    map.resolve urls referrer specifier = .ok url → Inside address (urls.asStr url) := by
  intro h
  have hpre : MappedByPrefix (decidingImports machineUrls oneDirectoryMap siteRoot climbing)
      (normalizeSpecifier machineUrls climbing siteRoot) "pkg/".toList "https://a.test/pkg/".toList := by
    constructor <;> decide +kernel
  have hresolve : oneDirectoryMap.resolve machineUrls siteRoot climbing =
      .ok ⟨"https://a.test/x".toList, by decide +kernel⟩ := by decide +kernel
  have hinside := h _ _ machineUrls plainMachine oneDirectory siteRoot oneDirectoryMap siteRoot climbing _ _ _
    machineUrls_standard oneDirectory_parse hpre hresolve
  exact absurd hinside.2 (by decide +kernel)

/-- a specifier with a dot segment that stays in the directory -/
theorem prefix_inside_file :
    Inside "https://a.test/pkg/".toList "https://a.test/pkg/b.js".toList := by
  have hpre : MappedByPrefix (decidingImports machineUrls oneDirectoryMap siteRoot "pkg/a/../b.js".toList)
      (normalizeSpecifier machineUrls "pkg/a/../b.js".toList siteRoot) "pkg/".toList "https://a.test/pkg/".toList := by
    constructor <;> decide +kernel
  have hresolve : oneDirectoryMap.resolve machineUrls siteRoot "pkg/a/../b.js".toList =
      .ok ⟨"https://a.test/pkg/b.js".toList, by decide +kernel⟩ := by decide +kernel
  refine (prefix_inside_iff machineUrls_standard oneDirectory_parse hpre hresolve).1 ⟨by decide +kernel, ?_⟩
  have hreached : plainMachine.reached "https://a.test/pkg/".toList =
      .path ⟨"https://a.test".toList, true, false, true⟩ ["pkg".toList] [] := by rfl
  rw [hreached]
  decide +kernel

end Render.Modules
