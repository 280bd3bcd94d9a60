import Revalle.Data.Falsy

/-!
# The geographic router

`GeoRouter.routeRequest` picks a node for a request. Some of what it consults is
a preference – proximity, load, latency – and some of it is a *hard constraint*:
a blocked source region, a compliance zone, a rule that blocks or that excludes
regions. The preferences are scores; the constraints are filters, applied one
after the other, each of which only ever removes nodes.

The filters do what they promise: a node that is left after all of them breaks
none of the constraints (`respects_of_mem_eligibleNodes`). What the router does
when *no* node is left is another matter: it logs a warning and answers with the
first available node, which no filter has looked at. The constraints hold of
every answer exactly when that node happens to satisfy them or is not needed.
-/

namespace ControlPlane.GeoRouter

open List Falsy

/-- A node as `nodeManager.getAvailableNodes` returns it, with the fields the
router reads; a field that is `none` is `undefined`. -/
structure Node where
  id : String
  region : Option String
  currentLoad : Option ℚ
  capacity : Option ℚ
  health : Option String
  deriving DecidableEq

/-- The actions a routing rule can ask for. -/
inductive Action where
  | prefer_region
  | exclude_region
  | force_region
  | block
  /-- Any other text: the `switch` has no case for it. -/
  | unknown
  deriving DecidableEq

structure Conditions where
  sourceRegion : Option String
  targetCountry : Option String
  protocol : Option String
  deriving DecidableEq

structure RoutingRule where
  enabled : Bool
  conditions : Option Conditions
  action : Action
  /-- `rule.parameters.regions`. -/
  regions : Option (List String)
  deriving DecidableEq

structure ComplianceZone where
  sourceRegions : List String
  allowedNodeRegions : List String
  deriving DecidableEq

/-- The options of a request. -/
structure Options where
  targetCountry : Option String
  protocol : Option String
  complianceRequired : Option String
  preferredRegions : Option (List String)
  deriving DecidableEq

/-- The context the routing rules are matched against. -/
structure Context where
  sourceRegion : Option String
  targetCountry : Option String
  protocol : Option String
  deriving DecidableEq

/-- The state of a router. -/
structure Router where
  /-- In the order `addRoutingRule` keeps: by priority, highest first. -/
  routingRules : List RoutingRule
  geoBlockList : Finset String
  complianceZones : String → Option ComplianceZone
  latencyCache : String → Option ℚ

/-- `_initDefaultComplianceZones`. -/
def defaultComplianceZones : String → Option ComplianceZone
  | "gdpr" => some
    { sourceRegions := ["eu-west-1", "eu-west-2", "eu-west-3", "eu-central-1", "eu-north-1"]
      allowedNodeRegions := ["eu-west-1", "eu-west-2", "eu-west-3", "eu-central-1", "eu-north-1"] }
  | "data-sovereignty-us" => some
    { sourceRegions := ["us-east-1", "us-east-2", "us-west-1", "us-west-2"]
      allowedNodeRegions := ["us-east-1", "us-east-2", "us-west-1", "us-west-2"] }
  | _ => none

/-- A router as the constructor leaves it. -/
def Router.init : Router := ⟨[], ∅, defaultComplianceZones, fun _ => none⟩

/-! ## Scores -/

structure RegionInfo where
  continent : String
  country : String
  proximity : List String

def regionHierarchy : String → Option RegionInfo
  | "us-east-1" => some ⟨"NA", "US", ["us-east-2", "us-west-1", "us-west-2", "ca-central-1"]⟩
  | "us-east-2" => some ⟨"NA", "US", ["us-east-1", "us-west-1", "us-west-2", "ca-central-1"]⟩
  | "us-west-1" => some ⟨"NA", "US", ["us-west-2", "us-east-1", "us-east-2", "ca-central-1"]⟩
  | "us-west-2" => some ⟨"NA", "US", ["us-west-1", "us-east-1", "us-east-2", "ca-central-1"]⟩
  | "ca-central-1" => some ⟨"NA", "CA", ["us-east-1", "us-east-2", "us-west-1"]⟩
  | "eu-west-1" => some ⟨"EU", "IE", ["eu-west-2", "eu-west-3", "eu-central-1", "eu-north-1"]⟩
  | "eu-west-2" => some ⟨"EU", "GB", ["eu-west-1", "eu-west-3", "eu-central-1"]⟩
  | "eu-west-3" => some ⟨"EU", "FR", ["eu-west-1", "eu-west-2", "eu-central-1"]⟩
  | "eu-central-1" => some ⟨"EU", "DE", ["eu-west-1", "eu-west-2", "eu-north-1"]⟩
  | "eu-north-1" => some ⟨"EU", "SE", ["eu-central-1", "eu-west-1", "eu-west-2"]⟩
  | "ap-southeast-1" => some ⟨"AS", "SG", ["ap-southeast-2", "ap-northeast-1", "ap-south-1"]⟩
  | "ap-southeast-2" => some ⟨"AS", "AU", ["ap-southeast-1", "ap-northeast-1"]⟩
  | "ap-northeast-1" => some ⟨"AS", "JP", ["ap-northeast-2", "ap-southeast-1", "us-west-2"]⟩
  | "ap-northeast-2" => some ⟨"AS", "KR", ["ap-northeast-1", "ap-southeast-1"]⟩
  | "ap-south-1" => some ⟨"AS", "IN", ["ap-southeast-1", "eu-west-1"]⟩
  | "sa-east-1" => some ⟨"SA", "BR", ["us-east-1", "us-east-2"]⟩
  | "me-south-1" => some ⟨"AS", "BH", ["eu-west-1", "ap-south-1"]⟩
  | "af-south-1" => some ⟨"AF", "ZA", ["eu-west-1", "me-south-1"]⟩
  | _ => none

def adjacentContinents : String → List String
  | "NA" => ["SA", "EU"]
  | "SA" => ["NA"]
  | "EU" => ["NA", "AF", "AS"]
  | "AF" => ["EU", "AS"]
  | "AS" => ["EU", "AF"]
  | "OC" => ["AS"]
  | _ => []

/-- `list?.includes(x)`. -/
def includes (l : Option (List String)) (x : Option String) : Bool :=
  match l, x with
  | some l, some x => x ∈ l
  | _, _ => false

/-- `_getProximityScore`. -/
def getProximityScore (sourceRegion nodeRegion : Option String) : ℚ :=
  match sourceRegion, nodeRegion with
  | some s, some n =>
    if s = "" ∨ n = "" then 1 / 2
    else if s = n then 1
    else
      match regionHierarchy s, regionHierarchy n with
      | some sourceInfo, some nodeInfo =>
        if sourceInfo.country = nodeInfo.country then 9 / 10
        else if n ∈ sourceInfo.proximity then 8 / 10
        else if sourceInfo.continent = nodeInfo.continent then 6 / 10
        else if nodeInfo.continent ∈ adjacentContinents sourceInfo.continent then 3 / 10
        else 1 / 10
      | _, _ => 1 / 2
  | _, _ => 1 / 2

/-- A region as a template string prints it. -/
def label (region : Option String) : String := region.getD "undefined"

/-- `node.capacity || 1000`. -/
def Node.capacityOrDefault (node : Node) : ℚ :=
  match node.capacity with
  | some c => if c = 0 then 1000 else c
  | none => 1000

/-- `_calculateNodeScore`; `none` is `NaN`, which a missing load leads to. -/
def Router.calculateNodeScore (r : Router) (node : Node) (sourceRegion : Option String)
    (options : Options) : Option ℚ := do
  let score : ℚ := 100 + getProximityScore sourceRegion node.region * 40
  let currentLoad ← node.currentLoad
  let score := score + (1 - currentLoad / node.capacityOrDefault) * 30
  let score :=
    if node.health = some "healthy" then score + 20
    else if node.health = some "degraded" then score + 10
    else score
  let score := if includes options.preferredRegions node.region then score + 10 else score
  let score :=
    match r.latencyCache (label sourceRegion ++ ":" ++ label node.region) with
    | some cachedLatency => score - cachedLatency / 100
    | none => score
  return max 0 score

/-- `Array.prototype.sort` with a comparator whose result is a number or `NaN`.
How elements are ordered that the comparator does not tell apart is the
engine's; that the array keeps its elements is the language's. -/
structure ArraySort (α : Type) where
  sort : (α → α → Option ℚ) → List α → List α
  perm (compare : α → α → Option ℚ) (l : List α) : (sort compare l).Perm l

/-- The merge sort: stable, as the language asks of a consistent comparator. -/
def ArraySort.stable (α : Type) : ArraySort α where
  sort compare l := l.mergeSort (fun a b =>
    match compare a b with
    | some d => d ≤ 0
    | none => true)
  perm _ l := mergeSort_perm l _

structure ScoredNode where
  node : Node
  score : Option ℚ

/-- `(a, b) => b.score - a.score`. -/
def ScoredNode.compare (a b : ScoredNode) : Option ℚ := do
  return (← b.score) - (← a.score)

/-! ## Filters -/

/-- `_filterByCompliance`. -/
def Router.filterByCompliance (r : Router) (nodes : List Node) (sourceRegion : Option String)
    (complianceZoneName : String) : List Node :=
  match r.complianceZones complianceZoneName with
  | none => nodes
  | some zone =>
    if ¬includes zone.sourceRegions sourceRegion then nodes
    else nodes.filter (fun n => includes zone.allowedNodeRegions n.region)

/-- One field of the conditions: an absent or empty one asks for nothing. -/
def matchCondition (condition value : Option String) : Bool :=
  !(truthy condition && condition ≠ value)

/-- `_matchConditions`. -/
def matchConditions (conditions : Option Conditions) (context : Context) : Bool :=
  match conditions with
  | none => true
  | some c =>
    matchCondition c.sourceRegion context.sourceRegion &&
      matchCondition c.targetCountry context.targetCountry &&
      matchCondition c.protocol context.protocol

/-- A rule that the loop of `_applyRoutingRules` does not skip. -/
def RoutingRule.applies (rule : RoutingRule) (context : Context) : Bool :=
  rule.enabled && matchConditions rule.conditions context

/-- The loop of `_applyRoutingRules`, over the nodes that are left. -/
def applyRules (context : Context) : List RoutingRule → List Node → List Node
  | [], filtered => filtered
  | rule :: rules, filtered =>
    if ¬rule.applies context then applyRules context rules filtered
    else
      match rule.action with
      | .exclude_region =>
        applyRules context rules (filtered.filter (fun n => !includes rule.regions n.region))
      | .force_region =>
        let forced := filtered.filter (fun n => includes rule.regions n.region)
        applyRules context rules (if forced.length > 0 then forced else filtered)
      | .block => []
      | .prefer_region => applyRules context rules filtered
      | .unknown => applyRules context rules filtered

/-- `_applyRoutingRules`. -/
def Router.applyRoutingRules (r : Router) (nodes : List Node) (context : Context) : List Node :=
  applyRules context r.routingRules nodes

/-- The context `routeRequest` builds for the rules. -/
def contextOf (sourceRegion : Option String) (options : Options) : Context :=
  ⟨sourceRegion, options.targetCountry, options.protocol⟩

/-- The nodes left after the compliance filter and the routing rules. -/
def Router.eligibleNodes (r : Router) (nodes : List Node) (sourceRegion : Option String)
    (options : Options) : List Node :=
  let eligibleNodes :=
    match options.complianceRequired with
    | none => nodes
    | some zone => if zone = "" then nodes else r.filterByCompliance nodes sourceRegion zone
  r.applyRoutingRules eligibleNodes (contextOf sourceRegion options)

/-- The test of the geo-blocking branch. -/
def Router.geoBlocked (r : Router) (sourceRegion : Option String) : Bool :=
  match sourceRegion with
  | none => false
  | some region => region ≠ "" ∧ region ∈ r.geoBlockList

/-- `routeRequest`, over the nodes that `getAvailableNodes` answered. -/
def Router.routeRequest (r : Router) (engine : ArraySort ScoredNode) (nodes : List Node)
    (sourceRegion : Option String) (options : Options) : Option Node :=
  if nodes.length = 0 then none
  else if r.geoBlocked sourceRegion then none
  else
    let eligibleNodes := r.eligibleNodes nodes sourceRegion options
    if eligibleNodes.length = 0 then
      -- "Fallback to first available"
      nodes.head?
    else
      let scoredNodes := eligibleNodes.map
        (fun node => ⟨node, r.calculateNodeScore node sourceRegion options⟩)
      (engine.sort ScoredNode.compare scoredNodes).head?.map ScoredNode.node

/-! ## The hard constraints -/

/-- **The hard constraints of a router on an answer**: no block on the source
region, the zone that compliance asks for, no blocking rule and no rule that
excludes the node's region. -/
structure Respects (r : Router) (sourceRegion : Option String) (options : Options) (n : Node) :
    Prop where
  notBlocked : ∀ region, sourceRegion = some region → region ∉ r.geoBlockList
  compliant : ∀ name zone, options.complianceRequired = some name →
    r.complianceZones name = some zone → includes zone.sourceRegions sourceRegion →
    includes zone.allowedNodeRegions n.region
  notRefused : ∀ rule ∈ r.routingRules, rule.applies (contextOf sourceRegion options) →
    rule.action ≠ .block
  notExcluded : ∀ rule ∈ r.routingRules, rule.applies (contextOf sourceRegion options) →
    rule.action = .exclude_region → ¬includes rule.regions n.region

variable {n : Node} {nodes : List Node} (context : Context)

/-- What one rule leaves, were it the only one, is what the loop goes on with. -/
theorem applyRules_cons (rule : RoutingRule) (rules : List RoutingRule) (filtered : List Node) :
    applyRules context (rule :: rules) filtered = [] ∨ applyRules context (rule :: rules) filtered =
        applyRules context rules (applyRules context [rule] filtered) := by
  by_cases happlies : rule.applies context
  · cases haction : rule.action with
    | block => exact .inl (by simp [applyRules, happlies, haction])
    | _ => exact .inr (by simp [applyRules, happlies, haction])
  · exact .inr (by simp [applyRules, happlies])

/-- One rule only removes nodes. -/
theorem applyRules_singleton_subset (rule : RoutingRule) (filtered : List Node) :
    applyRules context [rule] filtered ⊆ filtered := by
  intro n hn
  simp only [applyRules] at hn
  split at hn
  · exact hn
  · split at hn
    · exact mem_of_mem_filter hn
    · split at hn
      · exact mem_of_mem_filter hn
      · exact hn
    · exact absurd hn not_mem_nil
    · exact hn
    · exact hn

/-- The rules only remove nodes. -/
theorem applyRules_subset (rules : List RoutingRule) (filtered : List Node) :
    applyRules context rules filtered ⊆ filtered := by
  induction rules generalizing filtered with
  | nil => exact List.Subset.refl filtered
  | cons rule rules ih =>
    rcases applyRules_cons context rule rules filtered with h | h
    · rw [h]
      exact nil_subset filtered
    · rw [h]
      exact List.Subset.trans (ih _) (applyRules_singleton_subset context rule filtered)

/-- **A node that is left after all rules was let through by each of them.** -/
theorem mem_applyRules {context : Context} {rules : List RoutingRule} {filtered : List Node}
    (hn : n ∈ applyRules context rules filtered) : ∀ rule ∈ rules, rule.applies context →
      rule.action ≠ .block ∧ (rule.action = .exclude_region → ¬includes rule.regions n.region) := by
  induction rules generalizing filtered with
  | nil => exact nofun
  | cons first rules ih =>
    rcases applyRules_cons context first rules filtered with h | h
    · rw [h] at hn
      exact absurd hn not_mem_nil
    · rw [h] at hn
      refine forall_mem_cons.mpr ⟨fun happlies => ?_, ih hn⟩
      have hmem := applyRules_subset context rules _ hn
      cases haction : first.action <;> simp_all [applyRules]

/-- The code tests texts for truth, so it does not see an empty region name in
the block list nor a compliance zone with an empty name. -/
structure Named (r : Router) (sourceRegion : Option String) (options : Options) : Prop where
  source : sourceRegion = some "" → "" ∉ r.geoBlockList
  zone : options.complianceRequired = some "" → r.complianceZones "" = none

/-- **The filters keep the constraints.** -/
theorem respects_of_mem_eligibleNodes {r : Router} {sourceRegion : Option String}
    {options : Options} (hnamed : Named r sourceRegion options)
    (hblocked : ¬r.geoBlocked sourceRegion) (hn : n ∈ r.eligibleNodes nodes sourceRegion options) :
    Respects r sourceRegion options n where
  notBlocked := by
    rintro region rfl
    by_cases hempty : region = ""
    · exact hempty ▸ hnamed.source (by rw [hempty])
    · simpa [Router.geoBlocked, hempty] using hblocked
  compliant := by
    intro name zone hname hzone
    have hne : name ≠ "" := by
      rintro rfl
      simp [hnamed.zone hname] at hzone
    rw [Router.eligibleNodes, hname] at hn
    simp only [hne, if_false] at hn
    intro happlies
    have hmem := applyRules_subset _ _ _ hn
    rw [Router.filterByCompliance, hzone] at hmem
    simp only [happlies, not_true_eq_false, if_false, mem_filter] at hmem
    exact hmem.2
  notRefused rule hrule happlies := (mem_applyRules hn rule hrule happlies).1
  notExcluded rule hrule happlies := (mem_applyRules hn rule hrule happlies).2

/-- **When the constraints are kept**: the source is blocked, or the filters leave some node and
there are no empty names that they do not see, or they leave none and the first available node
breaks no constraint. -/
def Kept (r : Router) (nodes : List Node) (sourceRegion : Option String) (options : Options) :
    Prop :=
  r.geoBlocked sourceRegion = true ∨
    (r.eligibleNodes nodes sourceRegion options ≠ [] ∧ Named r sourceRegion options) ∨
    (r.eligibleNodes nodes sourceRegion options = [] ∧
      ∀ n ∈ nodes.head?, Respects r sourceRegion options n)

/-- **The router keeps the hard constraints exactly when its fallback does.** For
every set of nodes, rules, zones and blocks and every engine, each node that
`routeRequest` answers breaks none of the constraints if they are `Kept`; and only
then, unless an empty text is required to name a zone. -/
theorem routeRequest_respects_iff (r : Router) (engine : ArraySort ScoredNode)
    (nodes : List Node) (sourceRegion : Option String) (options : Options) :
    (Kept r nodes sourceRegion options →
      ∀ n, r.routeRequest engine nodes sourceRegion options = some n →
        Respects r sourceRegion options n) ∧
    ((options.complianceRequired = some "" → r.complianceZones "" = none) →
      (∀ n, r.routeRequest engine nodes sourceRegion options = some n →
        Respects r sourceRegion options n) → Kept r nodes sourceRegion options) := by
  by_cases hblocked : r.geoBlocked sourceRegion
  · exact ⟨fun _ => by simp [Router.routeRequest, hblocked], fun _ _ => .inl hblocked⟩
  by_cases heligible : r.eligibleNodes nodes sourceRegion options = []
  · -- nothing is left: the answer is the first available node
    have hanswer : r.routeRequest engine nodes sourceRegion options = nodes.head? := by
      by_cases hnodes : nodes = []
      · simp [Router.routeRequest, hnodes]
      · simp [Router.routeRequest, hnodes, hblocked, heligible]
    rw [hanswer]
    refine ⟨fun hkept => ?_, fun _ hall => .inr (.inr ⟨heligible, hall⟩)⟩
    rcases hkept with h | h | h
    · exact absurd h hblocked
    · exact absurd heligible h.1
    · exact h.2
  · -- something is left, and the answer is among it
    have hnodes : nodes ≠ [] := by
      rintro rfl
      refine heligible (subset_nil.mp (List.Subset.trans (applyRules_subset _ _ _) ?_))
      unfold Router.filterByCompliance
      repeat' split
      all_goals simp
    obtain ⟨n, hn, hanswer⟩ : ∃ n ∈ r.eligibleNodes nodes sourceRegion options,
        r.routeRequest engine nodes sourceRegion options = some n := by
      simp only [Router.routeRequest, length_eq_zero_iff, hnodes, hblocked, heligible,
        Bool.false_eq_true, if_false]
      set scored := (r.eligibleNodes nodes sourceRegion options).map
        fun node => (⟨node, r.calculateNodeScore node sourceRegion options⟩ : ScoredNode)
      have hne : engine.sort ScoredNode.compare scored ≠ [] := fun hnil =>
        heligible (map_eq_nil_iff.mp (perm_nil.mp ((hnil ▸ engine.perm _ scored).symm)))
      have hmem := (engine.perm _ scored).mem_iff.mp (head_mem hne)
      obtain ⟨node, hnode, heq⟩ := mem_map.mp hmem
      refine ⟨node, hnode, ?_⟩
      rw [head?_eq_some_head hne, Option.map_some, ← heq]
    rw [hanswer]
    constructor
    · rintro (h | h | h) _ ⟨⟩
      · exact absurd h hblocked
      · exact respects_of_mem_eligibleNodes h.2 hblocked hn
      · exact absurd h.1 heligible
    · intro hzone hall
      refine .inr (.inl ⟨heligible, fun hsource => ?_, hzone⟩)
      exact (hall n rfl).notBlocked "" hsource

/-- A node in `region` without any load. -/
def idle (id region : String) : Node := ⟨id, some region, some 0, some 1000, some "healthy"⟩

/-- A request for which compliance with the zone `zone` is required. -/
def requiring (zone : String) : Options := ⟨none, some "http", some zone, none⟩

theorem routeRequest_respects_gdpr :
    Kept .init [idle "a" "us-east-1", idle "b" "eu-north-1"] (some "eu-west-1")
        (requiring "gdpr") ∧
      ∀ n, Router.init.routeRequest (.stable _) [idle "a" "us-east-1", idle "b" "eu-north-1"]
        (some "eu-west-1") (requiring "gdpr") = some n →
          Respects .init (some "eu-west-1") (requiring "gdpr") n := by
  have hkept : Kept .init [idle "a" "us-east-1", idle "b" "eu-north-1"] (some "eu-west-1")
      (requiring "gdpr") :=
    .inr (.inl ⟨by decide, by decide, fun h => absurd h (by decide)⟩)
  exact ⟨hkept, (routeRequest_respects_iff _ _ _ _ _).1 hkept⟩

/-- **European traffic leaves Europe.** A request from `eu-west-1` that requires
GDPR compliance is sent to `us-east-1` when no European node is available. -/
theorem routeRequest_gdpr_fallback :
    Router.init.routeRequest (.stable _) [idle "a" "us-east-1"] (some "eu-west-1")
        (requiring "gdpr") = some (idle "a" "us-east-1") ∧
      ¬Respects .init (some "eu-west-1") (requiring "gdpr") (idle "a" "us-east-1") := by
  refine ⟨by decide, fun h => ?_⟩
  have hallowed := h.compliant "gdpr" _ rfl rfl (by decide)
  revert hallowed
  decide

end ControlPlane.GeoRouter
