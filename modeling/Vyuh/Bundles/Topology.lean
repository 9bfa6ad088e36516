import Vyuh.Bundles.Compose
import Vyuh.Lib.FMap
import Vyuh.Lib.Forest
import Mathlib

/-! Bundle configuration and its inheritance (`bundles/config.rs`, `bundles/mod.rs`). Every bundle has an identity, its
    operations belong to it, and merging it into another leaves a link to that one. A bundle's configuration holds for the
    operations of all bundles below it: their lineage is read off the links once the composition is done. -/

namespace Vyuh.Bundles

open Lib

/-- The identity of a bundle, a fresh UUID in the source. -/
abbrev BundleId := ℕ

structure BundleConf where
  audience : Option String
  tags : List (List Char)
  openapi : List Bundle.OpenApiConf
  mcp : Option Bundle.McpConf
  errors : List String

namespace BundleConf

def empty : BundleConf := ⟨none, [], [], none, []⟩

/-- The audience of a second declaration replaces the first, with an error. -/
def replaceAudience (conf : BundleConf) (audience : String) : BundleConf :=
  { conf with
    audience := some audience
    errors := conf.errors ++ (if conf.audience.isSome then ["a bundle configuration may declare one audience"] else []) }

def replaceMcp (conf : BundleConf) (mcp : Bundle.McpConf) : BundleConf :=
  { conf with
    mcp := some mcp
    errors := conf.errors ++ (if conf.mcp.isSome then ["a bundle configuration may declare one MCP endpoint"] else []) }

def merge (conf other : BundleConf) : BundleConf :=
  let conf := other.audience.elim conf conf.replaceAudience
  let conf := { conf with tags := conf.tags ++ other.tags, openapi := conf.openapi ++ other.openapi }
  let conf := other.mcp.elim conf conf.replaceMcp
  { conf with errors := conf.errors ++ other.errors }

/-- What is left when the endpoints are registered. -/
def takeEndpoints (conf : BundleConf) : BundleConf := { conf with openapi := [], mcp := none }

end BundleConf

/-- The parent links of the bundles that were merged. -/
structure BundleTopology where
  parents : FMap BundleId BundleId

namespace BundleTopology

def absorb (topology : BundleTopology) (childRoot : BundleId) (other : BundleTopology) (parent : BundleId) :
    BundleTopology :=
  ⟨FMap.insert (fun id => (other.parents id).or (topology.parents id)) childRoot parent⟩

/-- The bundles from the outermost down to this one. The loop of the source has no bound; here it has one. -/
def lineage (topology : BundleTopology) (steps : ℕ) (value : BundleId) : Option (List BundleId) :=
  (Forest.climb topology.parents steps value).map List.reverse

def contains (topology : BundleTopology) (steps : ℕ) (root value : BundleId) : Option Bool :=
  Forest.reaches topology.parents root steps value

/-- `max_by_key`: of several entries with the greatest key the last. -/
def maxByKey (entries : List (ℕ × ℕ)) : Option (ℕ × ℕ) :=
  entries.foldl (fun best entry => some (best.elim entry fun best => if best.1 ≤ entry.1 then entry else best)) none

/-- The depth of a service around a bundle. -/
def depthAround (topology : BundleTopology) (steps : ℕ) (bundleId : BundleId) (entry : BundleId × ℕ) :
    Option (Option (ℕ × ℕ)) := do
  if ← topology.contains steps entry.1 bundleId then
    let lineage ← topology.lineage steps entry.1
    return some (lineage.length, entry.2)
  else return none

/-- The deepest of the services around a bundle, as its place among the services' bundles (`nearest_node`). -/
def nearestNode (topology : BundleTopology) (steps : ℕ) (anchors : List BundleId) (bundleId : BundleId) :
    Option (Option ℕ) := do
  let depths ← anchors.zipIdx.mapM (topology.depthAround steps bundleId)
  return (maxByKey depths.reduceOption).map Prod.snd

end BundleTopology

/-- A bundle with its identity and its configuration. -/
structure ScopedBundle extends Bundle where
  id : BundleId
  configs : FMap BundleId BundleConf
  topology : BundleTopology
  /-- The bundle of each operation (`bundle_id`). -/
  owners : FMap OperationId BundleId
  /-- The bundle of each MCP service (`anchor_id`), in the order of the services. -/
  mcpAnchors : List BundleId

namespace ScopedBundle

def new (id : BundleId) : ScopedBundle where
  toBundle := .new
  id := id
  configs := FMap.empty
  topology := ⟨FMap.empty⟩
  owners := FMap.empty
  mcpAnchors := []

/-- Operations that belong to no bundle yet are this one's (`assign_bundle_id`). -/
def assign (bundle : ScopedBundle) (composed : Bundle) : ScopedBundle :=
  { bundle with
    toBundle := composed
    owners := fun id => (bundle.owners id).or (if composed.ops.any (·.id = id) then some bundle.id else none) }

def addPart (bundle : ScopedBundle) (id : OperationId) (part : BundlePart) : ScopedBundle :=
  bundle.assign (bundle.toBundle.addPart id part)

/-- Registers the endpoints of a configuration, the specs and the viewers under the identities given out for them. -/
def registerEndpoints (bundle : Bundle) (conf : BundleConf) (docIds : ℕ → OperationId × OperationId)
    (mcpId : OperationId) : Bundle :=
  let bundle := conf.openapi.zipIdx.foldl
    (fun bundle entry => bundle.registerOpenapi (docIds entry.2).1 (docIds entry.2).2 entry.1) bundle
  conf.mcp.elim bundle (bundle.registerMcp mcpId)

def withConf (bundle : ScopedBundle) (conf : BundleConf) (docIds : ℕ → OperationId × OperationId)
    (mcpId : OperationId) : ScopedBundle :=
  { bundle.assign (registerEndpoints bundle.toBundle conf docIds mcpId) with
    configs := bundle.configs.insert bundle.id
      (((bundle.configs bundle.id).map fun current => current.merge conf.takeEndpoints).getD conf.takeEndpoints)
    mcpAnchors := bundle.mcpAnchors ++
      conf.mcp.elim [] fun mcp => if mcp.validate = [] then [bundle.id] else [] }

def withPrefix (bundle : ScopedBundle) (pre : List Char) : ScopedBundle :=
  { bundle with toBundle := bundle.toBundle.withPrefix pre }

/-- Whether `absorb` gets past the names and routes of the other bundle. -/
def joins (bundle other : ScopedBundle) : Bool :=
  (other.nameIndex.find? fun entry => bundle.toBundle.containsName entry.1).isNone &&
    (other.toBundle.routes.findSome? bundle.toBundle.findRouteCollision).isNone

/-- Takes over the configurations of another bundle. -/
def mergeConfigs (configs other : FMap BundleId BundleConf) : FMap BundleId BundleConf := fun id =>
  (other id).elim (configs id) fun conf => some (((configs id).map fun current => current.merge conf).getD conf)

def merge (bundle other : ScopedBundle) (registries resources : Option BundleError) : ScopedBundle :=
  let merged := { bundle with toBundle := bundle.toBundle.merge other.toBundle registries resources }
  if bundle.joins other then
    { merged with
      configs := mergeConfigs bundle.configs other.configs
      topology := bundle.topology.absorb other.id other.topology bundle.id
      owners := fun id => (other.owners id).or (bundle.owners id)
      -- The services come after the registries, whose errors end the merge.
      mcpAnchors := bundle.mcpAnchors ++ (if registries.isNone then other.mcpAnchors else []) }
  else merged

/-! ### Finalization -/

/-- The configurations of a bundle and of those around it, from the outermost in. -/
def configsFor (bundle : ScopedBundle) (steps : ℕ) (id : BundleId) : Option (List BundleConf) :=
  (bundle.topology.lineage steps id).map fun lineage => lineage.filterMap bundle.configs

/-- The kinds whose operations need an audience without asking for a user. -/
def aggregateRequiresAudience : OperationKind → Bool
  | .apiDoc | .mcpTool => true
  | _ => false

/-- The audience and the further tags of an operation. An audience that is no valid one is an error. -/
def operationUpdate (bundle : ScopedBundle) (steps : ℕ) (op : Operation) (own : Option Auth.AudienceId)
    (requiresAuth : Bool) (default : Option Auth.AudienceId) :
    Option (Except Auth.AuthError (Option Auth.AudienceId × List (List Char))) :=
  match bundle.owners op.id with
  | none => some (.ok (own, []))
  | some bundleId =>
    (bundle.configsFor steps bundleId).map fun configs =>
      ((configs.filterMap BundleConf.audience).getLast?.mapM Auth.AudienceId.new).map fun declared =>
        ((declared.or own).or
            (if (op.kind ≠ .mcpTool && requiresAuth) || aggregateRequiresAudience op.kind then default else none),
          configs.flatMap BundleConf.tags)

end ScopedBundle

end Vyuh.Bundles
