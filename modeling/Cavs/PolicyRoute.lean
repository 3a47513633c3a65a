import Cavs.PatchPolicy

/-!
# The simulation of a patch policy

A query between two versions costs the cheapest path over the edges that the policy keeps, and a
full download where there is none. The search weighs an edge by its verified measurement, or by
one where it has none; the price is taken from the first measurement, verified or not.
-/
namespace Cavs.PatchPolicy
open LeastPath

structure VersionNode where
  id : String
  sizeBytes : UInt64
  compressedBytes : UInt64
  deriving DecidableEq, Repr

structure CavsRoutes where
  cold : List (List UInt64)
  warm : List (List UInt64)
  install : List UInt64
  deriving DecidableEq, Repr

structure PolicySpec where
  name : String
  edgeIdxs : List Nat
  deriving DecidableEq, Repr

/-- A graph of patches between its versions, with policies over its edges. -/
structure PatchGraph where
  versions : List VersionNode
  edges : List PatchEdge
  policies : List PolicySpec
  cavsRoutes : Option CavsRoutes
  inside : ∀ edge ∈ edges, edge.fromVersion < versions.length ∧ edge.toVersion < versions.length
  kept : ∀ spec ∈ policies, ∀ e ∈ spec.edgeIdxs, e < edges.length

def PatchGraph.policy (graph : PatchGraph) (name : String) : Option PolicySpec :=
  graph.policies.find? fun p => decide (p.name = name)

inductive ClientState where
  | coldWithPreviousInstall
  | warmCache
  deriving DecidableEq, Repr

structure Query where
  fromVersion : Nat
  toVersion : Nat
  rule : String
  deriving DecidableEq, Repr

structure QueryOutcome where
  fromId : String
  toId : String
  rule : String
  policy : String
  bytes : UInt64
  steps : Nat
  applyMs : UInt64
  verifyMs : UInt64
  covered : Bool
  deriving DecidableEq, Repr

inductive SimulateError where
  | unknownPolicy (name : String)
  | noCavsRoutes
  | edgeWithoutMeasurement (engine : String)
  /-- An index that no cell is at, which stops the program. -/
  | outOfRange
  deriving DecidableEq, Repr

def estApplyMs (bytes : UInt64) : UInt64 := bytes / (500 * 1024 * 1024 / 1000)

/-- A cell of a vector. -/
def cell {α : Type} (l : List α) (i : Nat) : Except SimulateError α :=
  match l[i]? with
  | some x => .ok x
  | none => .error .outOfRange

structure Totals where
  bytes : UInt64
  applyMs : UInt64
  verifyMs : UInt64
  deriving DecidableEq, Repr

/-- The sums along a path, from the measurement of each edge for the engine. -/
def sumAlong (edges : List PatchEdge) (engine : String) : List Nat → Totals → Except SimulateError Totals
  | [], t => .ok t
  | e :: rest, t =>
      match cell edges e with
      | .error stop => .error stop
      | .ok edge =>
          match edge.measure engine with
          | none => .error (.edgeWithoutMeasurement engine)
          | some m =>
              sumAlong edges engine rest
                ⟨t.bytes + m.compressedPatchBytes, t.applyMs + m.applyMs, t.verifyMs + m.verifyMs⟩

def CavsRoutes.price (routes : CavsRoutes) (state : ClientState) (q : Query) : Except SimulateError UInt64 :=
  if q.fromVersion = q.toVersion then cell routes.install q.toVersion
  else match state with
    | .coldWithPreviousInstall => (cell routes.cold q.fromVersion).bind fun row => cell row q.toVersion
    | .warmCache => (cell routes.warm q.fromVersion).bind fun row => cell row q.toVersion

/-- The outcome of one query. -/
def priceQuery (graph : PatchGraph) (spec : PolicySpec) (policyName engine : String) (state : ClientState)
    (q : Query) : Except SimulateError QueryOutcome :=
  if policyName = "cavs" then
    match graph.cavsRoutes with
    | none => .error .noCavsRoutes
    | some routes => do
        let bytes ← routes.price state q
        let source ← cell graph.versions q.fromVersion
        let target ← cell graph.versions q.toVersion
        return ⟨source.id, target.id, q.rule, policyName, bytes, 1, estApplyMs target.sizeBytes, 0, true⟩
  else do
    let source ← cell graph.versions q.fromVersion
    let target ← cell graph.versions q.toVersion
    if q.fromVersion = q.toVersion then
      return ⟨source.id, target.id, q.rule, policyName, target.compressedBytes, 0, 0, 0, true⟩
    else match cheapestPath graph.edges spec.edgeIdxs q.fromVersion q.toVersion (fun e => e.bytes engine) with
      | some (e :: rest) => do
          let t ← sumAlong graph.edges engine (e :: rest) ⟨0, 0, 0⟩
          return ⟨source.id, target.id, q.rule, policyName, t.bytes, (e :: rest).length, t.applyMs, t.verifyMs, true⟩
      | _ => return ⟨source.id, target.id, q.rule, policyName, target.compressedBytes, 0, 0, 0, false⟩

/-- The outcomes of a simulation, which stops at the first query that fails. -/
def simulatePolicy (graph : PatchGraph) (policyName engine : String) (queries : List Query) (state : ClientState) :
    Except SimulateError (List QueryOutcome) :=
  match graph.policy policyName with
  | none => .error (.unknownPolicy policyName)
  | some spec => queries.mapM (priceQuery graph spec policyName engine state)

/-! ## What a simulation is for -/

/-- A path of kept edges that were measured and verified for an engine. -/
def VerifiedRoute (graph : PatchGraph) (spec : PolicySpec) (engine : String) (i j : Nat) (path : List Nat) : Prop :=
  Follows graph.edges i j path ∧
    ∀ e ∈ path, e ∈ spec.edgeIdxs ∧ ((graph.edges[e]?).bind fun edge => edge.bytes engine).isSome = true

/-- What a path weighs for an engine: the patch bytes of its edges, where these are verified. -/
def patchBytes (graph : PatchGraph) (engine : String) (path : List Nat) : Nat :=
  weight graph.edges (fun edge => edge.bytes engine) path

/-- A verified route with the fewest bytes, and the fewest steps among these. -/
def CheapestRoute (graph : PatchGraph) (spec : PolicySpec) (engine : String) (i j : Nat) (path : List Nat) : Prop :=
  VerifiedRoute graph spec engine i j path ∧
    ∀ other, VerifiedRoute graph spec engine i j other →
      patchBytes graph engine path < patchBytes graph engine other ∨
        patchBytes graph engine path = patchBytes graph engine other ∧ path.length ≤ other.length

/-- An outcome reports the cheapest verified route, and that there is one. -/
structure Faithful (graph : PatchGraph) (spec : PolicySpec) (engine : String) (q : Query) (o : QueryOutcome) : Prop where
  covered : o.covered = true ↔ ∃ path, VerifiedRoute graph spec engine q.fromVersion q.toVersion path
  cheapest : o.covered = true → ∃ path, CheapestRoute graph spec engine q.fromVersion q.toVersion path ∧
    o.bytes.toNat = patchBytes graph engine path ∧ o.steps = path.length

/-- A path over edges that the policy keeps, verified or not. -/
def KeptPath (graph : PatchGraph) (spec : PolicySpec) (i j : Nat) (path : List Nat) : Prop :=
  Follows graph.edges i j path ∧ ∀ e ∈ path, e ∈ spec.edgeIdxs

/-- The first measurement for the engine of every edge along the path is a verified one. -/
def Proven (graph : PatchGraph) (engine : String) (path : List Nat) : Prop :=
  ∀ e ∈ path, ∃ edge m, graph.edges[e]? = some edge ∧ edge.measure engine = some m ∧ m.verified = true

/-- A proven path that a sum can hold comes before every path that is not proven, where an edge
that was never verified weighs one; or nothing verified leads there, and nothing that a sum can hold. -/
def Trusted (graph : PatchGraph) (spec : PolicySpec) (engine : String) (i j : Nat) : Prop :=
  (∃ path, KeptPath graph spec i j path ∧ Proven graph engine path ∧ patchBytes graph engine path < MAX ∧
    ∀ other, KeptPath graph spec i j other → ¬ Proven graph engine other →
      patchBytes graph engine path < patchBytes graph engine other ∨
        patchBytes graph engine path = patchBytes graph engine other ∧ path.length < other.length) ∨
  ∀ path, KeptPath graph spec i j path →
    ¬ VerifiedRoute graph spec engine i j path ∧ MAX ≤ patchBytes graph engine path

section Simulation
variable {graph : PatchGraph} {spec : PolicySpec} {policyName engine : String} {state : ClientState} {q : Query}

theorem cell_of_lt {α : Type} {l : List α} {i : Nat} (less : i < l.length) : cell l i = .ok l[i] := by
  rw [cell, List.getElem?_eq_getElem less]

theorem mapM_meets {α β ε : Type} {f : α → Except ε β} {P : α → β → Prop} {l : List α}
    (each : ∀ x ∈ l, ∃ y, f x = .ok y ∧ P x y) : ∃ ys, l.mapM f = .ok ys ∧ List.Forall₂ P l ys := by
  induction l with
  | nil => exact ⟨[], rfl, .nil⟩
  | cons a l ih =>
      obtain ⟨⟨y, one, here⟩, rest⟩ := List.forall_mem_cons.mp each
      obtain ⟨ys, more, meets⟩ := ih rest
      refine ⟨y :: ys, ?_, .cons here meets⟩
      rw [List.mapM_cons, one, more]
      rfl

/-- The outcome of a query between two versions that are not the same. -/
theorem priceQuery_eq (other : policyName ≠ "cavs") (from_lt : q.fromVersion < graph.versions.length)
    (to_lt : q.toVersion < graph.versions.length) (ne : q.fromVersion ≠ q.toVersion) :
    priceQuery graph spec policyName engine state q =
      match cheapestPath graph.edges spec.edgeIdxs q.fromVersion q.toVersion (fun e => e.bytes engine) with
      | some (e :: rest) =>
          (sumAlong graph.edges engine (e :: rest) ⟨0, 0, 0⟩).map fun t =>
            ⟨graph.versions[q.fromVersion].id, graph.versions[q.toVersion].id, q.rule, policyName, t.bytes,
              (e :: rest).length, t.applyMs, t.verifyMs, true⟩
      | _ => .ok ⟨graph.versions[q.fromVersion].id, graph.versions[q.toVersion].id, q.rule, policyName,
          graph.versions[q.toVersion].compressedBytes, 0, 0, 0, false⟩ := by
  rw [priceQuery, if_neg other, cell_of_lt from_lt, cell_of_lt to_lt]
  simp only [bind, Except.bind, if_neg ne, pure, Except.pure]
  cases cheapestPath graph.edges spec.edgeIdxs q.fromVersion q.toVersion (fun e => e.bytes engine) with
  | none => rfl
  | some path =>
      cases path with
      | nil => rfl
      | cons e rest =>
          dsimp only
          cases sumAlong graph.edges engine (e :: rest) ⟨0, 0, 0⟩ <;> rfl

/-- A query from a version to itself is always answered. -/
theorem priceQuery_same (other : policyName ≠ "cavs") (to_lt : q.toVersion < graph.versions.length)
    (same : q.fromVersion = q.toVersion) : ∃ o, priceQuery graph spec policyName engine state q = .ok o := by
  rw [priceQuery, if_neg other, same, cell_of_lt to_lt]
  simp only [bind, Except.bind, if_pos]
  exact ⟨_, rfl⟩

/-- A first measurement that is verified is the first verified one. -/
theorem bytes_of_measure {edge : PatchEdge} {m : EdgeMeasure} (first : edge.measure engine = some m)
    (verified : m.verified = true) : edge.bytes engine = some m.compressedPatchBytes := by
  obtain ⟨a, b, measures⟩ := edge
  have found : measures.find? (fun m => decide (m.engine = engine ∧ m.verified = true)) = some m := by
    obtain ⟨named, before, after, split_, others⟩ := List.find?_eq_some_iff_append.mp first
    refine List.find?_eq_some_iff_append.mpr ⟨?_, before, after, split_, fun x mem => ?_⟩
    · exact decide_eq_true ⟨of_decide_eq_true named, verified⟩
    · have unlike := others x mem
      simp only [Bool.not_eq_true', decide_eq_false_iff_not] at unlike ⊢
      exact fun both => unlike both.1
  exact congrArg (Option.map EdgeMeasure.compressedPatchBytes) found

/-- Along a proven path the price is the weight. -/
theorem Proven.sumAlong {path : List Nat} (proven : Proven graph engine path) (t : Totals)
    (fits : t.bytes.toNat + patchBytes graph engine path < 2 ^ 64) :
    ∃ u, sumAlong graph.edges engine path t = .ok u ∧
      u.bytes.toNat = t.bytes.toNat + patchBytes graph engine path := by
  induction path generalizing t with
  | nil => exact ⟨t, rfl, rfl⟩
  | cons e path ih =>
      obtain ⟨⟨edge, m, there, first, verified⟩, rest⟩ := List.forall_mem_cons.mp proven
      have one : patchBytes graph engine (e :: path) = m.compressedPatchBytes.toNat + patchBytes graph engine path := by
        rw [patchBytes, weight, List.map_cons, List.sum_cons, weightOf, there, Option.bind_some,
          bytes_of_measure first verified]
        rfl
      rw [one] at fits ⊢
      have added : (t.bytes + m.compressedPatchBytes).toNat = t.bytes.toNat + m.compressedPatchBytes.toNat := by
        rw [UInt64.toNat_add]
        exact Nat.mod_eq_of_lt (by omega)
      obtain ⟨u, sums, value⟩ := ih rest
        ⟨t.bytes + m.compressedPatchBytes, t.applyMs + m.applyMs, t.verifyMs + m.verifyMs⟩ (by dsimp only; omega)
      refine ⟨u, ?_, by dsimp only at value; omega⟩
      rw [PatchPolicy.sumAlong, cell, there]
      dsimp only
      rw [first]
      exact sums

theorem Proven.verified {path : List Nat} (proven : Proven graph engine path)
    (leads : KeptPath graph spec q.fromVersion q.toVersion path) :
    VerifiedRoute graph spec engine q.fromVersion q.toVersion path := by
  refine ⟨leads.1, fun e mem => ⟨leads.2 e mem, ?_⟩⟩
  obtain ⟨edge, m, there, first, verified⟩ := proven e mem
  rw [there, Option.bind_some, bytes_of_measure first verified]
  rfl

/-- The path that the search takes is proven, where a proven one comes first. -/
theorem Trusted.chosen {path : List Nat} (trusted : Trusted graph spec engine q.fromVersion q.toVersion)
    (taken : Chosen graph.edges spec.edgeIdxs (fun e => e.bytes engine) q.fromVersion q.toVersion path) :
    Proven graph engine path := by
  obtain ⟨follows, kept, least⟩ := taken.spec
  rcases trusted with ⟨first, leads, -, -, ahead⟩ | heavy
  · by_contra unproven
    have less := ahead path ⟨follows, kept⟩ unproven
    have most := least first leads.1 leads.2
    unfold patchBytes at less
    omega
  · exact absurd (heavy path ⟨follows, kept⟩).2 (Nat.not_le.mpr taken.below)

/-- Such a query is reported as it should be. -/
theorem Trusted.faithful (trusted : Trusted graph spec engine q.fromVersion q.toVersion) (other : policyName ≠ "cavs")
    (from_lt : q.fromVersion < graph.versions.length) (to_lt : q.toVersion < graph.versions.length)
    (ne : q.fromVersion ≠ q.toVersion) :
    ∃ o, priceQuery graph spec policyName engine state q = .ok o ∧ Faithful graph spec engine q o := by
  rw [priceQuery_eq other from_lt to_lt ne]
  rcases @cheapestPath_spec graph.edges spec.edgeIdxs (fun e => e.bytes engine) q.fromVersion q.toVersion ne with
    ⟨path, found, taken⟩ | ⟨found, heavy⟩
  · obtain ⟨follows, kept, least⟩ := taken.spec
    have proven := trusted.chosen taken
    have route := proven.verified ⟨follows, kept⟩
    have cheapest : CheapestRoute graph spec engine q.fromVersion q.toVersion path :=
      ⟨route, fun other verified => least other verified.1 fun e mem => (verified.2 e mem).1⟩
    have below : patchBytes graph engine path < MAX := taken.below
    obtain ⟨t, ran, value⟩ := proven.sumAlong ⟨0, 0, 0⟩ (by unfold MAX at below; simpa using by omega)
    rw [found]
    cases path with
    | nil => exact absurd follows ne
    | cons e rest =>
        dsimp only
        rw [ran]
        exact ⟨_, rfl, ⟨fun _ => ⟨_, route⟩, fun _ => rfl⟩, fun _ => ⟨_, cheapest, by simpa using value, rfl⟩⟩
  · -- No path is light enough, so none is proven and none verified.
    rw [found]
    have unverified : ¬ ∃ path, VerifiedRoute graph spec engine q.fromVersion q.toVersion path := by
      rintro ⟨path, route⟩
      rcases trusted with ⟨first, leads, -, light, -⟩ | none_
      · exact absurd (heavy first leads.1 leads.2) (Nat.not_le.mpr light)
      · exact (none_ path ⟨route.1, fun e mem => (route.2 e mem).1⟩).1 route
    exact ⟨_, rfl, ⟨fun covered => absurd covered Bool.false_ne_true, fun route => absurd route unverified⟩,
      fun covered => absurd covered Bool.false_ne_true⟩

end Simulation

/-! ## What a simulation reports -/

/-- Three versions, and a patch over both steps that failed once and then went through. -/
def retried : PatchGraph where
  versions := [⟨"v1", 100, 40⟩, ⟨"v2", 110, 45⟩, ⟨"v3", 120, 50⟩]
  edges := [⟨0, 1, [⟨"cavsplan", 5, 1, 1, true⟩]⟩, ⟨1, 2, [⟨"cavsplan", 7, 1, 1, true⟩]⟩,
    ⟨0, 2, [⟨"cavsplan", 3, 1, 1, false⟩, ⟨"cavsplan", 20, 1, 1, true⟩]⟩]
  policies := [⟨"all", [0, 1, 2]⟩]
  cavsRoutes := none
  inside := by decide
  kept := by decide

/-- Two versions and a patch between them that failed its verification. -/
def unproven : PatchGraph where
  versions := [⟨"v1", 100, 40⟩, ⟨"v2", 110, 45⟩]
  edges := [⟨0, 1, [⟨"cavsplan", 5, 1, 1, false⟩]⟩]
  policies := [⟨"adjacent", [0]⟩]
  cavsRoutes := none
  inside := by decide
  kept := by decide

/-- The failed patch is reported as the route, at its own size. -/
theorem simulate_unproven :
    simulatePolicy unproven "adjacent" "cavsplan" [⟨0, 1, "adjacent"⟩] .coldWithPreviousInstall =
      .ok [⟨"v1", "v2", "adjacent", "adjacent", 5, 1, 1, 1, true⟩] := by
  decide +kernel

end Cavs.PatchPolicy
