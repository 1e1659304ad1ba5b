/-
Import maps (`render-core/src/import_map.rs`): how a module specifier resolves.

Texts are lists of characters. `Url` is a type of another package; what is used of it is the parameter `Urls`. A map is
made of a JSON value that is parsed already, with the members of an object in the order they are iterated.
-/
import Mathlib.Data.List.Lex
import Mathlib.Data.Char
import Render.Core.SortedMap
import Render.Net.Text

namespace Render.Modules

open Render.Core Render.Net

/-- what is used of `Url`: the parser, `join`, the text of a URL, and `set_fragment(None)` -/
structure Urls (Url : Type) where
  parse : Chars → Option Url
  join : Url → Chars → Option Url
  asStr : Url → Chars
  withoutFragment : Url → Url

/-- the key a fetched module is stored under: its URL without a fragment -/
def Urls.moduleKey {Url : Type} (urls : Urls Url) (url : Url) : Chars := urls.asStr (urls.withoutFragment url)

abbrev ScopeImports := SortedMap Chars (Option Chars)

structure ImportMap where
  imports : ScopeImports
  scopes : SortedMap Chars ScopeImports

def ImportMap.default : ImportMap := ⟨.empty, .empty⟩

/-- why a specifier did not resolve -/
inductive ImportMapMiss where
  | unmapped
  | blocked
deriving DecidableEq

section Resolve

variable {Url : Type} (urls : Urls Url)

def isUrlLike (specifier : Chars) : Bool :=
  (urls.parse specifier).isSome || "/".toList.isPrefixOf specifier || "./".toList.isPrefixOf specifier ||
    "../".toList.isPrefixOf specifier

def normalizeUrlLike (value : Chars) (base : Url) : Option Chars :=
  if isUrlLike urls value then (urls.join base value).map urls.moduleKey else none

def normalizeSpecifier (specifier : Chars) (base : Url) : Chars := (normalizeUrlLike urls specifier base).getD specifier

/-- `Url::parse` of a target -/
def parseTarget (text : Chars) : Except ImportMapMiss Url :=
  match urls.parse text with
  | some url => .ok url
  | none => .error .unmapped

/-- the loop over the keys that end in `/`: the first of the longest that the specifier starts with -/
def longestPrefix (specifier : Chars) (longest : Option (Chars × Option Chars)) (entry : Chars × Option Chars) :
    Option (Chars × Option Chars) :=
  if "/".toList.isSuffixOf entry.1 && entry.1.isPrefixOf specifier &&
      longest.all fun current => current.1.byteLen < entry.1.byteLen then some entry
  else longest

def resolveIn (imports : ScopeImports) (specifier : Chars) : Option (Except ImportMapMiss Url) :=
  match imports.get specifier with
  | some (some url) => some (parseTarget urls url)
  | some none => some (.error .blocked)
  | none =>
    match imports.entries.foldl (longestPrefix specifier) none with
    | none => none
    | some (key, some url) => some (parseTarget urls (url ++ specifier.drop key.length))
    | some (_, none) => some (.error .blocked)

/-- `max_by_key` on the length of the scopes: the last of the longest -/
def longestScope (longest : Option (Chars × ScopeImports)) (scope : Chars × ScopeImports) :
    Option (Chars × ScopeImports) :=
  if longest.all fun current => current.1.byteLen ≤ scope.1.byteLen then some scope else longest

def ImportMap.resolve (map : ImportMap) (referrer : Url) (specifier : Chars) : Except ImportMapMiss Url :=
  let normalized := normalizeSpecifier urls specifier referrer
  let scope := (map.scopes.entries.filter fun entry => entry.1.isPrefixOf (urls.asStr referrer)).foldl longestScope none
  match scope.bind fun entry => resolveIn urls entry.2 normalized with
  | some result => result
  | none =>
    match resolveIn urls map.imports normalized with
    | some result => result
    | none =>
      if isUrlLike urls specifier then
        match urls.join referrer specifier with
        | some url => .ok url
        | none => .error .unmapped
      else .error .unmapped

end Resolve

/-! ## The map of a JSON value -/

/-- a value of `serde_json`, as far as import maps look into it -/
inductive JsonValue where
  | null
  | string (text : Chars)
  | object (members : List (Chars × JsonValue))
  | other

/-- why a value is no import map -/
inductive ImportMapError where
  | notAnObject
  | importsNotAnObject
  | scopesNotAnObject
  | scopeNotAUrl (scope : Chars)
  | target (target : Chars)
  | targetNotAString (key : Chars)
deriving DecidableEq

section Parse

variable {Url : Type} (urls : Urls Url) (base : Url)

def normalizeKey (key : Chars) : Chars := (normalizeUrlLike urls key base).getD key

/-- one key of `imports` and its target -/
def parseImport (imports : ScopeImports) (entry : Chars × JsonValue) : Except ImportMapError ScopeImports :=
  match entry.2 with
  | .null => .ok (imports.insert (normalizeKey urls base entry.1) none)
  | .string target =>
    match urls.join base target with
    | some url => .ok (imports.insert (normalizeKey urls base entry.1) (some (urls.moduleKey url)))
    | none => .error (.target target)
  | _ => .error (.targetNotAString (normalizeKey urls base entry.1))

def parseImports : Option JsonValue → Except ImportMapError ScopeImports
  | none => .ok .empty
  | some (.object members) => members.foldlM (parseImport urls base) .empty
  | some _ => .error .importsNotAnObject

/-- one scope and its imports -/
def parseScope (scopes : SortedMap Chars ScopeImports) (entry : Chars × JsonValue) :
    Except ImportMapError (SortedMap Chars ScopeImports) :=
  match normalizeUrlLike urls entry.1 base with
  | none => .error (.scopeNotAUrl entry.1)
  | some scope => do
    let imports ← parseImports urls base (some entry.2)
    return scopes.insert scope imports

def parseScopes : Option JsonValue → Except ImportMapError (SortedMap Chars ScopeImports)
  | none => .ok .empty
  | some (.object members) => members.foldlM (parseScope urls base) .empty
  | some _ => .error .scopesNotAnObject

/-- `ImportMap::parse`, behind the JSON parser -/
def ImportMap.parse : JsonValue → Except ImportMapError ImportMap
  | .object members => do
    let imports ← parseImports urls base (members.lookup "imports".toList)
    let scopes ← parseScopes urls base (members.lookup "scopes".toList)
    return ⟨imports, scopes⟩
  | _ => .error .notAnObject

end Parse

end Render.Modules
