/-
The graph of the modules of a page (`render-core/src/module_graph.rs`): which modules are stored, which were requested, and
what was reported.

The compiler of modules is the parameter `Compiler`: what it compiles a source to, the specifiers of a module and the text
that `{:?}` writes for a specifier are not looked into here. Where the source indexes `self.modules` by a key that it has
just read from it, the functions here do nothing for a key that is not there.
-/
import Mathlib.Data.Finset.Card
import Render.Modules.ImportMap

namespace Render.Modules

open Render.Core Render.Net

/-- `CompiledScript` and its compiler -/
structure Compiler (Compiled Limits : Type) where
  compileModule : Chars → Limits → Except Chars Compiled
  moduleRequests : Compiled → List Chars
  setSourceName : Compiled → Chars → Compiled
  /-- a text as `{:?}` writes it -/
  quoted : Chars → Chars

/-- the most modules that one graph will accept -/
def maxGraphModules : ℕ := 2048

structure GraphModule (Url Compiled : Type) where
  compiled : Compiled
  base : Url
  /-- specifier as written, and the key of the module it resolves to -/
  resolutions : SortedMap Chars Chars

/-- a problem that was found -/
inductive GraphDiagnostic where
  | blocked (request key : Chars)
  | unmapped (request key : Chars)
  | exceeded (target : Chars)
  | notCompiled (key error : Chars)
  | notLoaded (key message : Chars)
deriving DecidableEq

structure ModuleGraph (Url Compiled : Type) where
  modules : SortedMap Chars (GraphModule Url Compiled)
  requested : Finset Chars
  importMap : ImportMap
  diagnostics : List GraphDiagnostic

/-- the graph and the list that a round of `take_pending` builds -/
structure Round (Url Compiled : Type) where
  graph : ModuleGraph Url Compiled
  pending : List Url

namespace ModuleGraph

variable {Url Compiled Limits : Type} (urls : Urls Url) (compiler : Compiler Compiled Limits)

def new : ModuleGraph Url Compiled := ⟨.empty, ∅, .default, []⟩

def setImportMap (graph : ModuleGraph Url Compiled) (importMap : ImportMap) : ModuleGraph Url Compiled :=
  { graph with importMap }

def add (graph : ModuleGraph Url Compiled) (key : Chars) (base : Url) (compiled : Compiled) : ModuleGraph Url Compiled :=
  { graph with
    requested := insert (urls.moduleKey (urls.withoutFragment base)) graph.requested
    modules := graph.modules.insert key ⟨compiled, base, .empty⟩ }

def report (graph : ModuleGraph Url Compiled) (diagnostic : GraphDiagnostic) : ModuleGraph Url Compiled :=
  { graph with diagnostics := graph.diagnostics ++ [diagnostic] }

/-- a target is recorded, and requested if it was not yet -/
def requestTarget (round : Round Url Compiled) (key request : Chars) (entry : GraphModule Url Compiled) (target : Url) :
    Round Url Compiled :=
  let targetKey := urls.moduleKey target
  let resolved := { entry with resolutions := entry.resolutions.insert request targetKey }
  let graph := { round.graph with modules := round.graph.modules.insert key resolved }
  if graph.requested.card ≥ maxGraphModules then ⟨graph.report (.exceeded targetKey), round.pending⟩
  else if targetKey ∈ graph.requested then ⟨graph, round.pending⟩
  else ⟨{ graph with requested := insert targetKey graph.requested }, round.pending ++ [target]⟩

/-- one specifier of a module -/
def resolveRequest (key : Chars) (base : Url) (round : Round Url Compiled) (request : Chars) : Round Url Compiled :=
  match round.graph.modules.get key with
  | none => round
  | some entry =>
    if (entry.resolutions.get request).isSome then round
    else
      match round.graph.importMap.resolve urls base request with
      | .error .blocked => { round with graph := round.graph.report (.blocked request key) }
      | .error .unmapped => { round with graph := round.graph.report (.unmapped request key) }
      | .ok target => requestTarget urls round key request entry target

/-- the specifiers of one module -/
def resolveModule (round : Round Url Compiled) (key : Chars) : Round Url Compiled :=
  match round.graph.modules.get key with
  | none => round
  | some entry => (compiler.moduleRequests entry.compiled).foldl (resolveRequest urls key entry.base) round

def takePending (graph : ModuleGraph Url Compiled) : Round Url Compiled :=
  graph.modules.keys.foldl (resolveModule urls compiler) ⟨graph, []⟩

def complete (graph : ModuleGraph Url Compiled) (requested : Url) (outcome : Except Chars (Url × Chars)) (limits : Limits) :
    ModuleGraph Url Compiled :=
  let key := urls.moduleKey requested
  match outcome with
  | .ok (finalUrl, source) =>
    match compiler.compileModule source limits with
    | .ok compiled =>
      let entry := ⟨compiler.setSourceName compiled (urls.asStr finalUrl), finalUrl, .empty⟩
      { graph with modules := graph.modules.insert key entry }
    | .error error => graph.report (.notCompiled key error)
  | .error message => graph.report (.notLoaded key message)

def takeDiagnostics (graph : ModuleGraph Url Compiled) : List GraphDiagnostic × ModuleGraph Url Compiled :=
  (graph.diagnostics, { graph with diagnostics := [] })

end ModuleGraph

end Render.Modules
