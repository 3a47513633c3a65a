import Cavs.Gate
import Cavs.Workspace
import Mathlib.Algebra.BigOperators.Group.Finset.Basic
import Mathlib.Algebra.Order.BigOperators.Group.Finset

/-!
# What a client fetches to install a build

A plan goes through the depots that the client receives, and counts of each the chunks that are
neither in the installed build nor in a depot before it. What a depot needs is read off that
count.
-/
namespace Cavs.ClientPlan
open Workspace (App Branch Build Depot DepotBuild DepotIndex Platform)
open Finset (mem_sdiff mem_union)

section Plan

/-- What the files of a workspace say of one app. Each of them may be refused. -/
structure View (ε : Type) where
  appId : String
  app : Except ε App
  build : String → Except ε Build
  index : String → String → Except ε DepotIndex

inductive PlanError (ε : Type) where
  | workspace (e : ε)
  | branchNotFound (branch app : String)
  | servesNothing (branch : String)
  | noTarget
  | unknownPlatform (text : String)
  | nothingDelivered (build : String)
  deriving DecidableEq, Repr

structure InstallPlanArgs where
  branch : Option String
  platform : Option String
  language : Option String
  owned : List String
  fromBuild : Option String
  toBuild : Option String

inductive Action where
  | noOp
  | update
  | install
  deriving DecidableEq, Repr

structure DepotPlan where
  depot : String
  action : Action
  bytes : Nat
  route : String
  deriving DecidableEq, Repr

structure InstallPlan where
  app : String
  branch : Option String
  platform : Option String
  language : Option String
  owned : List String
  fromBuild : Option String
  toBuild : String
  depots : List DepotPlan
  totalBytes : Nat
  deriving DecidableEq, Repr

structure ClientState where
  platform : Option Platform
  language : Option String
  owned : List String

variable {ε : Type}

def fromWorkspace {α : Type} (read : Except ε α) : Except (PlanError ε) α := read.mapError .workspace

def parsePlatform (text : String) : Option Platform :=
  if eqIgnoreAsciiCase text "windows" || eqIgnoreAsciiCase text "win" then some .windows
  else if eqIgnoreAsciiCase text "linux" then some .linux
  else if eqIgnoreAsciiCase text "macos" || eqIgnoreAsciiCase text "mac" || eqIgnoreAsciiCase text "osx" then
    some .macos
  else none

def findBranch (app : App) (id : String) : Except (PlanError ε) Branch :=
  match app.branches.find? fun b => b.id = id with
  | some branch => .ok branch
  | none => .error (.branchNotFound id app.id)

/-- A depot that declares something goes only to a client that declares the same. -/
def matchesClient {α : Type} [DecidableEq α] : Option α → Option α → Bool
  | none, _ => true
  | some a, some b => decide (a = b)
  | some _, none => false

/-- Does the client receive the depot? -/
def delivers (app : App) (client : ClientState) (db : DepotBuild) : Bool :=
  match app.depots.find? fun d => d.id = db.depotId with
  | none => false
  | some depot =>
      let ownedOk := if client.owned = [] then !depot.optional else client.owned.contains db.depotId || !depot.optional
      matchesClient depot.platform client.platform && matchesClient depot.language client.language && ownedOk

/-- The chunks of every file, in the order of the paths. -/
def indexChunks (index : DepotIndex) : List (String × Nat) := index.files.toList.flatMap Prod.snd

def chunkSet (index : DepotIndex) : Finset String := ((indexChunks index).map Prod.fst).toFinset

/-- A chunk costs its length when it is neither held nor counted before. -/
def countChunk (held : Finset String) (counted : Nat × Finset String) (chunk : String × Nat) : Nat × Finset String :=
  if chunk.1 ∈ held ∨ chunk.1 ∈ counted.2 then counted else (wordAdd counted.1 chunk.2, insert chunk.1 counted.2)

def heldBy (indexes : List DepotIndex) : Finset String := indexes.foldr (fun index set => chunkSet index ∪ set) ∅

def fetchBytes (wanted : DepotIndex) (indexes : List DepotIndex) : Nat :=
  ((indexChunks wanted).foldl (countChunk (heldBy indexes)) (0, ∅)).1

/-- What an index asks of a client, by the bytes that are to be fetched. -/
def depotPlan (db : DepotBuild) (had : Bool) (new : DepotIndex) (bytes : Nat) : DepotPlan :=
  if bytes = 0 then ⟨db.depotId, .noOp, bytes, "none — already up to date"⟩
  else if had then
    ⟨db.depotId, .update, bytes, if wordMul bytes 10 < new.totalBytes then "CAVS .cavsplan" else "CAVS chunks / hybrid"⟩
  else
    ⟨db.depotId, .install, bytes, if wordMul bytes 2 < new.totalBytes then "CAVS chunks (cross-depot reuse)" else "bootstrap"⟩

def hasDepot (installed : Option Build) (id : String) : Bool :=
  match installed with
  | none => false
  | some build => build.depots.any fun d => d.depotId = id

def readIndexes (v : View ε) (build : String) : List DepotBuild → Except (PlanError ε) (List DepotIndex)
  | [] => .ok []
  | db :: rest => do
      let index ← fromWorkspace (v.index build db.depotId)
      return index :: (← readIndexes v build rest)

/-- What is fetched for a depot is there for those that follow. -/
def planDepots (v : View ε) (installed : Option Build) (target : String) :
    List DepotBuild → List DepotIndex → Except (PlanError ε) (List DepotPlan)
  | [], _ => .ok []
  | db :: rest, held => do
      let new ← fromWorkspace (v.index target db.depotId)
      let plan := depotPlan db (hasDepot installed db.depotId) new (fetchBytes new held)
      return plan :: (← planDepots v installed target rest (held ++ [new]))

/-- What the arguments stand for. -/
structure Request where
  app : App
  client : ClientState
  target : Build
  installed : Option Build

def targetId (app : App) (args : InstallPlanArgs) : Except (PlanError ε) String :=
  match args.toBuild, args.branch with
  | some id, _ => .ok id
  | none, some branch => do
      match (← findBranch app branch).currentBuild with
      | some id => return id
      | none => .error (.servesNothing branch)
  | none, none => .error .noTarget

def installedBuild (v : View ε) : Option String → Except (PlanError ε) (Option Build)
  | none => .ok none
  | some id => do return some (← fromWorkspace (v.build id))

def clientPlatform : Option String → Except (PlanError ε) (Option Platform)
  | none => .ok none
  | some text => match parsePlatform text with
    | some platform => .ok (some platform)
    | none => .error (.unknownPlatform text)

def resolve (v : View ε) (args : InstallPlanArgs) : Except (PlanError ε) Request := do
  let app ← fromWorkspace v.app
  let target ← fromWorkspace (v.build (← targetId app args))
  let installed ← installedBuild v args.fromBuild
  let platform ← clientPlatform args.platform
  return ⟨app, ⟨platform, args.language, args.owned⟩, target, installed⟩

/-- The depots of the build that the client receives. -/
def Request.wanted (r : Request) : List DepotBuild := r.target.depots.filter (delivers r.app r.client)

def heldIndexes (v : View ε) : Option Build → Except (PlanError ε) (List DepotIndex)
  | none => .ok []
  | some build => readIndexes v build.id build.depots

def planRequest (v : View ε) (args : InstallPlanArgs) (r : Request) : Except (PlanError ε) InstallPlan :=
  if r.wanted = [] then .error (.nothingDelivered r.target.id)
  else do
    let held ← heldIndexes v r.installed
    let plans ← planDepots v r.installed r.target.id r.wanted held
    return {
      app := v.appId
      branch := args.branch
      platform := args.platform
      language := args.language
      owned := args.owned
      fromBuild := r.installed.map Build.id
      toBuild := r.target.id
      depots := plans
      totalBytes := (plans.map DepotPlan.bytes).sum % 2 ^ 64 }

def installPlan (v : View ε) (args : InstallPlanArgs) : Except (PlanError ε) InstallPlan := do
  planRequest v args (← resolve v args)

end Plan

section Preview

inductive DeltaStatus where
  | updated
  | new
  | removed
  | unchanged
  deriving DecidableEq, Repr

structure DepotDelta where
  depot : String
  status : DeltaStatus
  oldBytes : Nat
  newBytes : Nat
  estimatedUpdateBytes : Nat
  deriving DecidableEq, Repr

variable {ε : Type}

/-- The bytes of the chunks of the new index that the old one does not hold. -/
def updateBytes (old new : DepotIndex) : Nat :=
  ((indexChunks new).foldl (countChunk (chunkSet old)) (0, ∅)).1

def deltaRow (v : View ε) (candidate current : Build) (db : DepotBuild) : Except (PlanError ε) DepotDelta := do
  let new ← fromWorkspace (v.index candidate.id db.depotId)
  if current.depots.any fun d => d.depotId = db.depotId then do
    let old ← fromWorkspace (v.index current.id db.depotId)
    let update := updateBytes old new
    return ⟨db.depotId, if update = 0 then .unchanged else .updated, old.totalBytes, new.totalBytes, update⟩
  else return ⟨db.depotId, .new, 0, new.totalBytes, new.totalBytes⟩

def deltaRows (v : View ε) (candidate current : Build) : List DepotBuild → Except (PlanError ε) (List DepotDelta)
  | [] => .ok []
  | db :: rest => do
      let row ← deltaRow v candidate current db
      return row :: (← deltaRows v candidate current rest)

def removedRows (candidate current : Build) : List DepotDelta :=
  (current.depots.filter fun db => !candidate.depots.any fun d => d.depotId = db.depotId).map fun db =>
    ⟨db.depotId, .removed, db.totalBytes, 0, 0⟩

/-- The build that would be served, and the one that is. -/
def previewBuilds (v : View ε) (branch build : String) : Except (PlanError ε) (Build × Option Build) := do
  let app ← fromWorkspace v.app
  let candidate ← fromWorkspace (v.build build)
  match (← findBranch app branch).currentBuild with
  | none => return (candidate, none)
  | some id => return (candidate, some (← fromWorkspace (v.build id)))

/-- There are no rows when the branch serves nothing yet. -/
def branchPromotePreview (v : View ε) (branch build : String) : Except (PlanError ε) (Option (List DepotDelta)) := do
  match ← previewBuilds v branch build with
  | (_, none) => return none
  | (candidate, some current) => do
      let rows ← deltaRows v candidate current candidate.depots
      return some (rows ++ removedRows candidate current)

end Preview

section Shares
variable {α : Type} [DecidableEq α] (len : α → Nat) {a : α}

def unionAll (sets : List (Finset α)) : Finset α := sets.foldr (fun s all => s ∪ all) ∅

theorem mem_unionAll {sets : List (Finset α)} : a ∈ unionAll sets ↔ ∃ s ∈ sets, a ∈ s := by
  induction sets with
  | nil => simp [unionAll]
  | cons s rest hyp =>
    rw [show unionAll (s :: rest) = s ∪ unionAll rest from rfl, mem_union, hyp]
    simp

/-- What each set adds to those before it. -/
def shares : Finset α → List (Finset α) → List (Finset α)
  | _, [] => []
  | held, s :: rest => (s \ held) :: shares (held ∪ s) rest

theorem shares_getElem? (held : Finset α) (sets : List (Finset α)) (i : Nat) :
    (shares held sets)[i]? = sets[i]?.map fun s => s \ (held ∪ unionAll (sets.take i)) := by
  induction sets generalizing held i with
  | nil => simp [shares]
  | cons s rest hyp =>
    cases i with
    | zero => simp [shares, unionAll]
    | succ i =>
      rw [shares, List.getElem?_cons_succ, List.getElem?_cons_succ, hyp, List.take_succ_cons]
      rw [show unionAll (s :: rest.take i) = s ∪ unionAll (rest.take i) from rfl, Finset.union_assoc]

theorem sum_shares (held : Finset α) (sets : List (Finset α)) :
    ((shares held sets).map fun s => ∑ a ∈ s, len a).sum = ∑ a ∈ unionAll sets \ held, len a := by
  induction sets generalizing held with
  | nil => simp [shares, unionAll]
  | cons s rest hyp =>
    have parts : unionAll (s :: rest) \ held = (s \ held) ∪ (unionAll rest \ (held ∪ s)) := by
      ext a
      rw [show unionAll (s :: rest) = s ∪ unionAll rest from rfl]
      simp only [mem_sdiff, mem_union]
      tauto
    have apart : Disjoint (s \ held) (unionAll rest \ (held ∪ s)) := by
      rw [Finset.disjoint_left]
      intro a first later
      exact (Finset.mem_sdiff.mp later).2 (Finset.mem_union_right _ (Finset.mem_sdiff.mp first).1)
    rw [shares, List.map_cons, List.sum_cons, hyp, parts, Finset.sum_union apart]

theorem mem_shares_self (held : Finset α) {s t : Finset α} {rest : List (Finset α)} (mem : a ∈ s)
    (there : t ∈ shares (held ∪ s) rest) : a ∉ t := by
  obtain ⟨i, found⟩ := List.getElem?_of_mem there
  rw [shares_getElem?] at found
  obtain ⟨u, -, rfl⟩ := Option.map_eq_some_iff.mp found
  intro inside
  exact (Finset.mem_sdiff.mp inside).2 (Finset.mem_union_left _ (Finset.mem_union_right _ mem))

/-- Everything that is not held falls to exactly one of the sets. -/
theorem existsUnique_share (held : Finset α) (sets : List (Finset α)) (mem : a ∈ unionAll sets)
    (free : a ∉ held) : ∃! i : Nat, ∃ s : Finset α, (shares held sets)[i]? = some s ∧ a ∈ s := by
  induction sets generalizing held with
  | nil => simp [unionAll] at mem
  | cons s rest hyp =>
    by_cases first : a ∈ s
    · refine ⟨0, ⟨s \ held, rfl, Finset.mem_sdiff.mpr ⟨first, free⟩⟩, ?_⟩
      intro i ⟨t, found, inside⟩
      cases i with
      | zero => rfl
      | succ i => exact absurd inside (mem_shares_self held first (List.mem_of_getElem? found))
    · have later : a ∈ unionAll rest := by
        rw [show unionAll (s :: rest) = s ∪ unionAll rest from rfl, mem_union] at mem
        exact mem.resolve_left first
      have fresh : a ∉ held ∪ s := by
        rw [mem_union, not_or]
        exact ⟨free, first⟩
      obtain ⟨i, there, only⟩ := hyp (held ∪ s) later fresh
      refine ⟨i + 1, there, ?_⟩
      intro j ⟨t, found, inside⟩
      cases j with
      | zero =>
        obtain rfl : s \ held = t := by simpa [shares] using found
        exact absurd (Finset.mem_sdiff.mp inside).1 first
      | succ j => rw [only j ⟨t, found, inside⟩]

end Shares

section Spec
variable {ε : Type} (v : View ε) (len : String → Nat)

/-- Equal chunks are equally long, and `len` is how long they are. -/
def View.Sized : Prop := ∀ build depot index, v.index build depot = .ok index → ∀ chunk ∈ indexChunks index, chunk.2 = len chunk.1

/-- The chunks of a depot of a build. -/
def hashesAt (build depot : String) : Finset String :=
  match v.index build depot with
  | .ok index => chunkSet index
  | .error _ => ∅

/-- The lengths of all different chunks add up to a machine word. -/
def View.Bounded : Prop :=
  ∀ s : Finset String, (∀ h ∈ s, ∃ build depot, h ∈ hashesAt v build depot) → ∑ h ∈ s, len h < 2 ^ 64

def hashesOf (build : Build) (depots : List DepotBuild) : Finset String :=
  unionAll (depots.map fun db => hashesAt v build.id db.depotId)

/-- The chunks of all depots of the installed build. -/
def Request.installedHashes (r : Request) : Finset String :=
  match r.installed with
  | none => ∅
  | some build => hashesOf v build build.depots

/-- The chunks of the depots of the installed build that the client receives. -/
def Request.ownHashes (r : Request) : Finset String :=
  match r.installed with
  | none => ∅
  | some build => hashesOf v build (build.depots.filter (delivers r.app r.client))

/-- What the client lacks of the depots that it receives. -/
def Request.needed (r : Request) : Finset String := hashesOf v r.target r.wanted \ r.ownHashes v

/-- The client has the depot already, with the files that the new build has there. -/
def Request.Has (r : Request) (depot : String) : Prop :=
  ∃ build db old new, r.installed = some build ∧ db ∈ build.depots ∧ delivers r.app r.client db = true ∧
    db.depotId = depot ∧ v.index build.id depot = .ok old ∧ v.index r.target.id depot = .ok new ∧ old.files = new.files

/-- Every chunk that is lacking falls to one depot of the plan, and no other to any. -/
structure Charged (r : Request) (plan : InstallPlan) (charge : List (Finset String)) : Prop where
  bytes : plan.depots.map DepotPlan.bytes = charge.map fun s => ∑ h ∈ s, len h
  inside : ∀ (i : Nat) (s : Finset String) (db : DepotBuild), charge[i]? = some s → r.wanted[i]? = some db → s ⊆ hashesAt v r.target.id db.depotId
  lacking : ∀ s ∈ charge, s ⊆ r.needed v
  once : ∀ h ∈ r.needed v, ∃! i : Nat, ∃ s : Finset String, charge[i]? = some s ∧ h ∈ s

/-- The plan tells the client the truth. -/
structure PlanTells (r : Request) (plan : InstallPlan) : Prop where
  rows : plan.depots.map DepotPlan.depot = r.wanted.map DepotBuild.depotId
  total : plan.totalBytes = ∑ h ∈ r.needed v, len h
  charged : ∃ charge, Charged v len r plan charge
  actions : ∀ row ∈ plan.depots, row.action = .noOp ↔ r.Has v row.depot

/-- A depot that is reported as unchanged has the files that it had. -/
def PreviewTells (candidate current : Build) (rows : List DepotDelta) : Prop :=
  ∀ row ∈ rows, row.status = .unchanged → ∃ old new, v.index current.id row.depot = .ok old ∧
    v.index candidate.id row.depot = .ok new ∧ old.files = new.files

/-- No chunk that the client lacks lies in a depot that was kept from it. -/
def Request.NothingWithheld (r : Request) : Prop :=
  ∀ h ∈ hashesOf v r.target r.wanted, len h ≠ 0 → h ∈ r.installedHashes v → h ∈ r.ownHashes v

/-- A depot all of whose content lies somewhere in the installed build or in a depot before it
is one that the client has. -/
def Request.NothingMoved (r : Request) : Prop :=
  ∀ (i : Nat) (db : DepotBuild), r.wanted[i]? = some db →
    (∀ h ∈ hashesAt v r.target.id db.depotId, len h ≠ 0 →
      h ∈ r.installedHashes v ∨ h ∈ hashesOf v r.target (r.wanted.take i)) →
    r.Has v db.depotId

/-- A depot that gains no chunk keeps its files. -/
def NothingDropped (candidate current : Build) : Prop :=
  ∀ db ∈ candidate.depots, (∃ d ∈ current.depots, d.depotId = db.depotId) →
    ∀ old new, v.index current.id db.depotId = .ok old → v.index candidate.id db.depotId = .ok new →
      (∀ h ∈ chunkSet new, len h ≠ 0 → h ∈ chunkSet old) → old.files = new.files

end Spec

section Counting
variable {len : String → Nat}

theorem countChunk_fold {held : Finset String} {chunks : List (String × Nat)} (sized : ∀ c ∈ chunks, c.2 = len c.1)
    (counted : Nat × Finset String)
    (word : counted.1 + ∑ h ∈ ((chunks.map Prod.fst).toFinset \ held) \ counted.2, len h < 2 ^ 64) :
    chunks.foldl (countChunk held) counted =
      (counted.1 + ∑ h ∈ ((chunks.map Prod.fst).toFinset \ held) \ counted.2, len h,
        counted.2 ∪ ((chunks.map Prod.fst).toFinset \ held)) := by
  induction chunks generalizing counted with
  | nil => simp
  | cons c rest hyp =>
    have here : c.2 = len c.1 := sized c List.mem_cons_self
    have others : ∀ d ∈ rest, d.2 = len d.1 := fun d mem => sized d (List.mem_cons_of_mem _ mem)
    rw [List.map_cons, List.toFinset_cons] at word
    rw [List.foldl_cons, List.map_cons, List.toFinset_cons, countChunk]
    split
    case isTrue known =>
      have same : (insert c.1 (rest.map Prod.fst).toFinset \ held) \ counted.2 =
          ((rest.map Prod.fst).toFinset \ held) \ counted.2 := by
        ext h
        simp only [mem_sdiff, Finset.mem_insert]
        constructor
        · rintro ⟨⟨rfl | mem, free⟩, uncounted⟩
          · exact absurd known (not_or.mpr ⟨free, uncounted⟩)
          · exact ⟨⟨mem, free⟩, uncounted⟩
        · rintro ⟨⟨mem, free⟩, uncounted⟩
          exact ⟨⟨.inr mem, free⟩, uncounted⟩
      have all : counted.2 ∪ (insert c.1 (rest.map Prod.fst).toFinset \ held) =
          counted.2 ∪ ((rest.map Prod.fst).toFinset \ held) := by
        ext h
        simp only [mem_union, mem_sdiff, Finset.mem_insert]
        constructor
        · rintro (mem | ⟨rfl | mem, free⟩)
          · exact .inl mem
          · exact .inl (known.resolve_left free)
          · exact .inr ⟨mem, free⟩
        · rintro (mem | ⟨mem, free⟩)
          · exact .inl mem
          · exact .inr ⟨.inr mem, free⟩
      rw [same] at word
      rw [hyp others counted word, same, all]
    case isFalse fresh =>
      obtain ⟨free, uncounted⟩ := not_or.mp fresh
      have parts : (insert c.1 (rest.map Prod.fst).toFinset \ held) \ counted.2 =
          insert c.1 (((rest.map Prod.fst).toFinset \ held) \ insert c.1 counted.2) := by
        ext h
        simp only [mem_sdiff, Finset.mem_insert]
        by_cases same : h = c.1
        · subst same
          simp [free, uncounted]
        · simp [same]
      have apart : c.1 ∉ ((rest.map Prod.fst).toFinset \ held) \ insert c.1 counted.2 := by simp
      have all : counted.2 ∪ (insert c.1 (rest.map Prod.fst).toFinset \ held) =
          insert c.1 counted.2 ∪ ((rest.map Prod.fst).toFinset \ held) := by
        ext h
        simp only [mem_union, mem_sdiff, Finset.mem_insert]
        by_cases same : h = c.1
        · subst same
          simp [free]
        · simp [same]
      rw [parts, Finset.sum_insert apart, ← Nat.add_assoc] at word
      rw [here, wordAdd_eq (Nat.lt_of_le_of_lt (Nat.le_add_right _ _) word), hyp others _ word, parts,
        Finset.sum_insert apart, all, Nat.add_assoc]

theorem counted_bytes {held : Finset String} {index : DepotIndex} (sized : ∀ c ∈ indexChunks index, c.2 = len c.1)
    (word : ∑ h ∈ chunkSet index \ held, len h < 2 ^ 64) :
    ((indexChunks index).foldl (countChunk held) (0, ∅)).1 = ∑ h ∈ chunkSet index \ held, len h := by
  rw [countChunk_fold sized (0, ∅) (by rwa [Nat.zero_add, Finset.sdiff_empty]), Nat.zero_add, Finset.sdiff_empty, chunkSet]

theorem heldBy_eq (indexes : List DepotIndex) : heldBy indexes = unionAll (indexes.map chunkSet) := by
  rw [heldBy, unionAll, List.foldr_map]

theorem unionAll_append {α : Type} [DecidableEq α] (a b : List (Finset α)) :
    unionAll (a ++ b) = unionAll a ∪ unionAll b := by
  ext x
  simp only [mem_union, mem_unionAll, List.mem_append, or_and_right, exists_or]

end Counting

section Rows
variable {ε : Type} {v : View ε} {len : String → Nat} {held : List DepotIndex}

theorem fromWorkspace_ok {α : Type} {read : Except ε α} {a : α} : fromWorkspace read = .ok a ↔ read = .ok a := by
  cases read <;> simp [fromWorkspace, Except.mapError]

theorem ok_of_then {η α β : Type} {x : Except η α} {f : α → Except η β} {b : β} (run : (x >>= f) = .ok b) :
    ∃ a, x = .ok a ∧ f a = .ok b := by
  cases x with
  | error e => cases run
  | ok a => exact ⟨a, rfl, run⟩

theorem hashesAt_of {build depot : String} {index : DepotIndex} (found : v.index build depot = .ok index) :
    hashesAt v build depot = chunkSet index := by
  rw [hashesAt, found]

theorem View.Bounded.index (bounded : v.Bounded len) {build depot : String} {index : DepotIndex}
    (found : v.index build depot = .ok index) (held : Finset String) : ∑ h ∈ chunkSet index \ held, len h < 2 ^ 64 :=
  bounded _ fun h mem => ⟨build, depot, by
    rw [hashesAt_of found]
    exact (Finset.mem_sdiff.mp mem).1⟩

theorem readIndexes_held {build : String} {dbs : List DepotBuild} (read : readIndexes v build dbs = .ok held) :
    heldBy held = unionAll (dbs.map fun db => hashesAt v build db.depotId) := by
  rw [heldBy_eq]
  induction dbs generalizing held with
  | nil =>
    obtain rfl : [] = held := by simpa [readIndexes] using read
    rfl
  | cons db rest hyp =>
    obtain ⟨index, first, more⟩ := ok_of_then read
    obtain ⟨indexes, later, made⟩ := ok_of_then more
    obtain rfl : index :: indexes = held := by simpa [pure, Except.pure] using made
    rw [List.map_cons, List.map_cons, hashesAt_of (fromWorkspace_ok.mp first)]
    rw [unionAll, unionAll, List.foldr_cons, List.foldr_cons]
    congr 1
    exact hyp later

theorem depotPlan_noOp (db : DepotBuild) (had : Bool) (new : DepotIndex) (bytes : Nat) :
    (depotPlan db had new bytes).action = .noOp ↔ bytes = 0 := by
  rw [depotPlan]
  split
  case isTrue nothing => simp [nothing]
  case isFalse some => split <;> simp [some]

theorem depotPlan_depot (db : DepotBuild) (had : Bool) (new : DepotIndex) (bytes : Nat) :
    (depotPlan db had new bytes).depot = db.depotId ∧ (depotPlan db had new bytes).bytes = bytes := by
  rw [depotPlan]
  split
  · exact ⟨rfl, rfl⟩
  · split <;> exact ⟨rfl, rfl⟩

/-- What the rows of a plan say, over the depots that they are about. -/
structure RowsSpec (v : View ε) (len : String → Nat) (target : String) (dbs : List DepotBuild) (held : Finset String)
    (plans : List DepotPlan) : Prop where
  depots : plans.map DepotPlan.depot = dbs.map DepotBuild.depotId
  bytes : plans.map DepotPlan.bytes =
    (shares held (dbs.map fun db => hashesAt v target db.depotId)).map fun s => ∑ h ∈ s, len h
  actions : ∀ row ∈ plans, row.action = .noOp ↔ row.bytes = 0

theorem planDepots_spec (sized : v.Sized len) (bounded : v.Bounded len) {installed : Option Build} {target : String}
    {dbs : List DepotBuild} {plans : List DepotPlan} (run : planDepots v installed target dbs held = .ok plans) :
    RowsSpec v len target dbs (heldBy held) plans := by
  induction dbs generalizing held plans with
  | nil =>
    obtain rfl : [] = plans := by simpa [planDepots] using run
    exact ⟨rfl, rfl, fun row mem => nomatch mem⟩
  | cons db rest hyp =>
    obtain ⟨new, first, more⟩ := ok_of_then run
    obtain ⟨others, later, made⟩ := ok_of_then more
    have found : v.index target db.depotId = .ok new := fromWorkspace_ok.mp first
    have cost : fetchBytes new held = ∑ h ∈ hashesAt v target db.depotId \ heldBy held, len h := by
      rw [hashesAt_of found, fetchBytes, counted_bytes (sized target db.depotId new found) (bounded.index found _)]
    have grown : heldBy (held ++ [new]) = heldBy held ∪ hashesAt v target db.depotId := by
      rw [heldBy_eq, heldBy_eq, List.map_append, unionAll_append, hashesAt_of found]
      simp [unionAll]
    have spec := hyp later
    rw [grown] at spec
    obtain rfl : depotPlan db (hasDepot installed db.depotId) new (fetchBytes new held) :: others = plans := by
      simpa [pure, Except.pure] using made
    constructor
    · rw [List.map_cons, List.map_cons, spec.depots, (depotPlan_depot _ _ _ _).1]
    · rw [List.map_cons, spec.bytes, (depotPlan_depot _ _ _ _).2, cost, List.map_cons, shares, List.map_cons]
    · intro row mem
      cases mem with
      | head => rw [depotPlan_noOp, (depotPlan_depot _ _ _ _).2]
      | tail _ mem => exact spec.actions row mem

theorem heldIndexes_held {r : Request} (read : heldIndexes v r.installed = .ok held) :
    heldBy held = r.installedHashes v := by
  rw [Request.installedHashes]
  cases there : r.installed with
  | none =>
    rw [there] at read
    obtain rfl : [] = held := by simpa [heldIndexes] using read
    rfl
  | some build =>
    rw [there] at read
    exact readIndexes_held read

/-- The rows of a plan and their sum. -/
theorem installPlan_spec (sized : v.Sized len) (bounded : v.Bounded len) {args : InstallPlanArgs} {r : Request} {plan : InstallPlan}
    (resolved : resolve v args = .ok r) (planned : installPlan v args = .ok plan) :
    RowsSpec v len r.target.id r.wanted (r.installedHashes v) plan.depots ∧
      plan.totalBytes = (plan.depots.map DepotPlan.bytes).sum % 2 ^ 64 := by
  obtain ⟨r', again, run⟩ := ok_of_then planned
  obtain rfl : r = r' := by
    rw [resolved] at again
    exact Except.ok.inj again
  rw [planRequest] at run
  split at run
  case isTrue => cases run
  case isFalse =>
    obtain ⟨held, read, more⟩ := ok_of_then run
    obtain ⟨plans, rows, made⟩ := ok_of_then more
    have spec := planDepots_spec sized bounded rows
    rw [heldIndexes_held read] at spec
    obtain rfl := Except.ok.inj made
    exact ⟨spec, rfl⟩

end Rows

section Truth
variable {ε : Type} {v : View ε} {len : String → Nat} {r : Request} {depot : String} {s : Finset String}
  {dbs : List DepotBuild} {plans : List DepotPlan} {candidate : Build}

theorem mem_hashesOf {build : Build} {depots : List DepotBuild} {h : String} :
    h ∈ hashesOf v build depots ↔ ∃ db ∈ depots, h ∈ hashesAt v build.id db.depotId := by
  rw [hashesOf, mem_unionAll]
  simp

theorem Request.ownHashes_subset (r : Request) : r.ownHashes v ⊆ r.installedHashes v := by
  intro h mem
  rw [ownHashes] at mem
  rw [installedHashes]
  cases there : r.installed with
  | none =>
    rw [there] at mem
    exact mem
  | some build =>
    rw [there] at mem
    obtain ⟨db, listed, inside⟩ := mem_hashesOf.mp mem
    exact mem_hashesOf.mpr ⟨db, (List.mem_filter.mp listed).1, inside⟩

/-- A depot that the client has costs nothing. -/
theorem Request.Has.held (has : r.Has v depot) : hashesAt v r.target.id depot ⊆ r.installedHashes v := by
  obtain ⟨build, db, old, new, there, listed, delivered, rfl, had, wanted, same⟩ := has
  have chunks : chunkSet new = chunkSet old := by rw [chunkSet, chunkSet, indexChunks, indexChunks, same]
  rw [hashesAt_of wanted, chunks, ← hashesAt_of had, installedHashes, there]
  intro h mem
  exact mem_hashesOf.mpr ⟨db, listed, mem⟩

theorem sum_eq_zero_iff_empty : ∑ h ∈ s, len h = 0 ↔ ∀ h ∈ s, len h = 0 :=
  Finset.sum_eq_zero_iff

/-- What one row of the plan costs. -/
theorem RowsSpec.row {target : String} {held : Finset String} (spec : RowsSpec v len target dbs held plans)
    {i : Nat} {db : DepotBuild} (there : dbs[i]? = some db) :
    ∃ row, plans[i]? = some row ∧ row.depot = db.depotId ∧
      row.bytes = ∑ h ∈ hashesAt v target db.depotId \
        (held ∪ unionAll ((dbs.take i).map fun db => hashesAt v target db.depotId)), len h := by
  have depot := congrArg (fun l => l[i]?) spec.depots
  have bytes := congrArg (fun l => l[i]?) spec.bytes
  simp only [List.getElem?_map, there, Option.map_some, shares_getElem?, ← List.map_take] at depot bytes
  obtain ⟨row, found, named⟩ := Option.map_eq_some_iff.mp depot
  rw [found] at bytes
  exact ⟨row, found, named, Option.some.inj bytes⟩

theorem RowsSpec.length {target : String} {held : Finset String} (spec : RowsSpec v len target dbs held plans) :
    plans.length = dbs.length := by
  have same := congrArg List.length spec.depots
  rwa [List.length_map, List.length_map] at same

/-- What is not charged but lacking is empty, when nothing was kept from the client. -/
theorem Request.NothingWithheld.sum_eq (clear : r.NothingWithheld v len)
    (inside : s ⊆ hashesOf v r.target r.wanted) (before : Finset String) :
    ∑ h ∈ s \ (r.installedHashes v ∪ before), len h = ∑ h ∈ s \ (r.ownHashes v ∪ before), len h := by
  apply Finset.sum_subset
  · exact Finset.sdiff_subset_sdiff subset_rfl (Finset.union_subset_union r.ownHashes_subset subset_rfl)
  · intro h lacking charged
    obtain ⟨mem, free⟩ := Finset.mem_sdiff.mp lacking
    obtain ⟨other, fresh⟩ := not_or.mp (fun either => free (Finset.mem_union.mpr either))
    have held : h ∈ r.installedHashes v := by
      by_contra missing
      exact charged (Finset.mem_sdiff.mpr ⟨mem, fun either => (Finset.mem_union.mp either).elim missing fresh⟩)
    by_contra full
    exact other (clear h (inside mem) full held)

theorem wanted_inside (mem : s ∈ r.wanted.map fun db => hashesAt v r.target.id db.depotId) :
    s ⊆ hashesOf v r.target r.wanted := by
  intro h inside
  exact mem_unionAll.mpr ⟨s, mem, inside⟩

/-- The chunks that the plan charges, over all its rows. -/
def Request.charge (v : View ε) (r : Request) : List (Finset String) :=
  shares (r.ownHashes v) (r.wanted.map fun db => hashesAt v r.target.id db.depotId)

theorem RowsSpec.total (spec : RowsSpec v len r.target.id r.wanted (r.installedHashes v) plans) :
    (plans.map DepotPlan.bytes).sum = ∑ h ∈ hashesOf v r.target r.wanted \ r.installedHashes v, len h := by
  rw [spec.bytes, sum_shares]
  rfl

theorem charged_of_clear {plan : InstallPlan}
    (spec : RowsSpec v len r.target.id r.wanted (r.installedHashes v) plan.depots) (clear : r.NothingWithheld v len) :
    Charged v len r plan (r.charge v) := by
  constructor
  case bytes =>
    rw [spec.bytes, Request.charge]
    ext1 i
    rw [List.getElem?_map, List.getElem?_map, shares_getElem?, shares_getElem?, Option.map_map, Option.map_map]
    cases found : (r.wanted.map fun db => hashesAt v r.target.id db.depotId)[i]? with
    | none => rfl
    | some s =>
      rw [Option.map_some, Option.map_some]
      exact congrArg some (clear.sum_eq (wanted_inside (List.mem_of_getElem? found)) _)
  case inside =>
    intro i s db found there
    rw [Request.charge, shares_getElem?, List.getElem?_map, there] at found
    obtain rfl := Option.some.inj found
    exact Finset.sdiff_subset
  case lacking =>
    intro s mem
    obtain ⟨i, found⟩ := List.getElem?_of_mem mem
    rw [Request.charge, shares_getElem?] at found
    obtain ⟨t, listed, rfl⟩ := Option.map_eq_some_iff.mp found
    exact Finset.sdiff_subset_sdiff (wanted_inside (List.mem_of_getElem? listed)) Finset.subset_union_left
  case once =>
    intro h mem
    obtain ⟨wanted, free⟩ := Finset.mem_sdiff.mp mem
    exact existsUnique_share _ _ wanted free

/-- A row costs nothing exactly when its content is all there before. -/
theorem row_free_iff {i : Nat} :
    ∑ h ∈ hashesAt v r.target.id depot \
        (r.installedHashes v ∪ unionAll ((r.wanted.take i).map fun db => hashesAt v r.target.id db.depotId)), len h = 0 ↔
      ∀ h ∈ hashesAt v r.target.id depot, len h ≠ 0 →
        h ∈ r.installedHashes v ∨ h ∈ hashesOf v r.target (r.wanted.take i) := by
  rw [sum_eq_zero_iff_empty]
  constructor
  · intro free h mem full
    by_contra missing
    have lacking := not_or.mp missing
    exact full (free h (Finset.mem_sdiff.mpr ⟨mem, fun either => (Finset.mem_union.mp either).elim lacking.1 lacking.2⟩))
  · intro there h mem
    obtain ⟨inside, free⟩ := Finset.mem_sdiff.mp mem
    by_contra full
    exact free (Finset.mem_union.mpr (there h inside full))

theorem planTells_iff (bounded : v.Bounded len) {plan : InstallPlan}
    (spec : RowsSpec v len r.target.id r.wanted (r.installedHashes v) plan.depots)
    (total : plan.totalBytes = (plan.depots.map DepotPlan.bytes).sum % 2 ^ 64) :
    PlanTells v len r plan ↔ r.NothingWithheld v len ∧ r.NothingMoved v len := by
  have word : ∑ h ∈ hashesOf v r.target r.wanted \ r.installedHashes v, len h < 2 ^ 64 := bounded _ fun h mem => by
    obtain ⟨db, -, there⟩ := mem_hashesOf.mp (Finset.mem_sdiff.mp mem).1
    exact ⟨_, _, there⟩
  rw [spec.total, Nat.mod_eq_of_lt word] at total
  have fewer : hashesOf v r.target r.wanted \ r.installedHashes v ⊆ r.needed v :=
    Finset.sdiff_subset_sdiff subset_rfl r.ownHashes_subset
  constructor
  · intro tells
    have same : ∑ h ∈ r.needed v \ (hashesOf v r.target r.wanted \ r.installedHashes v), len h = 0 := by
      have parts := Finset.sum_sdiff (f := len) fewer
      rw [← total, tells.total] at parts
      omega
    constructor
    · intro h wanted full held
      by_contra other
      apply full
      apply sum_eq_zero_iff_empty.mp same h
      rw [mem_sdiff, Request.needed, mem_sdiff, mem_sdiff]
      exact ⟨⟨wanted, other⟩, fun charged => charged.2 held⟩
    · intro i db there before
      obtain ⟨row, found, named, bytes⟩ := spec.row there
      have free : row.bytes = 0 := bytes.trans (row_free_iff.mpr before)
      have mem := List.mem_of_getElem? found
      rw [← named]
      exact (tells.actions row mem).mp ((spec.actions row mem).mpr free)
  · rintro ⟨clear, still⟩
    refine ⟨spec.depots, ?_, ⟨r.charge v, charged_of_clear spec clear⟩, ?_⟩
    · have charged := clear.sum_eq (subset_refl (hashesOf v r.target r.wanted)) ∅
      rw [Finset.union_empty, Finset.union_empty] at charged
      rw [total, charged, Request.needed]
    · intro row mem
      obtain ⟨i, found⟩ := List.getElem?_of_mem mem
      have short : i < r.wanted.length := spec.length ▸ (List.getElem?_eq_some_iff.mp found).1
      obtain ⟨row', again, named, bytes⟩ := spec.row (List.getElem?_eq_getElem short)
      obtain rfl : row' = row := Option.some.inj (again.symm.trans found)
      rw [spec.actions row' mem, bytes, named]
      constructor
      · intro free
        exact still i _ (List.getElem?_eq_getElem short) (row_free_iff.mp free)
      · intro has
        exact row_free_iff.mpr fun h inside _ => .inl (has.held inside)

theorem updateBytes_eq_zero (sized : v.Sized len) (bounded : v.Bounded len) {build : String} {old new : DepotIndex}
    (found : v.index build depot = .ok new) :
    updateBytes old new = 0 ↔ ∀ h ∈ chunkSet new, len h ≠ 0 → h ∈ chunkSet old := by
  rw [updateBytes, counted_bytes (sized build depot new found) (bounded.index found _), sum_eq_zero_iff_empty]
  constructor
  · intro free h mem full
    by_contra missing
    exact full (free h (Finset.mem_sdiff.mpr ⟨mem, missing⟩))
  · intro there h mem
    by_contra full
    exact (Finset.mem_sdiff.mp mem).2 (there h (Finset.mem_sdiff.mp mem).1 full)

/-- A row says that its depot is unchanged when the depot was served and gains nothing. -/
theorem deltaRow_unchanged {current : Build} {db : DepotBuild} {row : DepotDelta}
    (run : deltaRow v candidate current db = .ok row) :
    row.depot = db.depotId ∧ ∃ new, v.index candidate.id db.depotId = .ok new ∧
      (row.status = .unchanged ↔ ∃ d ∈ current.depots, d.depotId = db.depotId ∧
        ∃ old, v.index current.id db.depotId = .ok old ∧ updateBytes old new = 0) := by
  obtain ⟨new, first, more⟩ := ok_of_then run
  have found := fromWorkspace_ok.mp first
  split at more
  case isTrue had =>
    obtain ⟨old, second, made⟩ := ok_of_then more
    have was := fromWorkspace_ok.mp second
    obtain ⟨d, listed, same⟩ := List.any_eq_true.mp had
    obtain rfl := Except.ok.inj made
    refine ⟨rfl, new, found, ?_⟩
    constructor
    · intro unchanged
      refine ⟨d, listed, of_decide_eq_true same, old, was, ?_⟩
      by_contra some
      simp [some] at unchanged
    · rintro ⟨d', -, -, old', again, nothing⟩
      obtain rfl : old = old' := Except.ok.inj (was.symm.trans again)
      exact if_pos nothing
  case isFalse fresh =>
    obtain rfl := Except.ok.inj more
    refine ⟨rfl, new, found, ?_⟩
    constructor
    · intro unchanged
      cases unchanged
    · rintro ⟨d, listed, same, -⟩
      exact absurd (List.any_eq_true.mpr ⟨d, listed, decide_eq_true same⟩) fresh

theorem deltaRows_mem {current : Build} {rows : List DepotDelta}
    (run : deltaRows v candidate current dbs = .ok rows) :
    (∀ row ∈ rows, ∃ db ∈ dbs, deltaRow v candidate current db = .ok row) ∧
      ∀ db ∈ dbs, ∃ row ∈ rows, deltaRow v candidate current db = .ok row := by
  induction dbs generalizing rows with
  | nil =>
    obtain rfl : [] = rows := Except.ok.inj run
    exact ⟨fun row mem => (nomatch mem), fun db mem => (nomatch mem)⟩
  | cons db rest hyp =>
    obtain ⟨row, first, more⟩ := ok_of_then run
    obtain ⟨others, later, made⟩ := ok_of_then more
    obtain rfl : row :: others = rows := Except.ok.inj made
    obtain ⟨from_, into⟩ := hyp later
    constructor
    · intro row' mem
      cases mem with
      | head => exact ⟨db, List.mem_cons_self, first⟩
      | tail _ mem =>
        obtain ⟨db', listed, ran⟩ := from_ row' mem
        exact ⟨db', List.mem_cons_of_mem _ listed, ran⟩
    · intro db' mem
      cases mem with
      | head => exact ⟨row, List.mem_cons_self, first⟩
      | tail _ mem =>
        obtain ⟨row', listed, ran⟩ := into db' mem
        exact ⟨row', List.mem_cons_of_mem _ listed, ran⟩

theorem previewTells_iff (sized : v.Sized len) (bounded : v.Bounded len) {current : Build} {rows : List DepotDelta}
    (run : deltaRows v candidate current candidate.depots = .ok rows) :
    PreviewTells v candidate current (rows ++ removedRows candidate current) ↔
      NothingDropped v len candidate current := by
  obtain ⟨source, written⟩ := deltaRows_mem run
  constructor
  · rintro tells db listed ⟨d, served, same⟩ old new was found gained
    obtain ⟨row, mem, ran⟩ := written db listed
    obtain ⟨named, new', again, unchanged⟩ := deltaRow_unchanged ran
    obtain rfl : new = new' := Except.ok.inj (found.symm.trans again)
    have free := (updateBytes_eq_zero sized bounded found).mpr gained
    obtain ⟨old', new', was', found', files⟩ :=
      tells row (List.mem_append_left _ mem) (unchanged.mpr ⟨d, served, same, old, was, free⟩)
    rw [named] at was' found'
    obtain rfl : old = old' := Except.ok.inj (was.symm.trans was')
    obtain rfl : new = new' := Except.ok.inj (found.symm.trans found')
    exact files
  · intro kept row mem unchanged
    cases List.mem_append.mp mem with
    | inl mem =>
      obtain ⟨db, listed, ran⟩ := source row mem
      obtain ⟨named, new, found, read⟩ := deltaRow_unchanged ran
      obtain ⟨d, served, same, old, was, free⟩ := read.mp unchanged
      rw [named]
      have gained := (updateBytes_eq_zero sized bounded found).mp free
      exact ⟨old, new, was, found, kept db listed ⟨d, served, same⟩ old new was found gained⟩
    | inr mem =>
      obtain ⟨db, -, rfl⟩ := List.mem_map.mp mem
      cases unchanged

end Truth

section Settled
variable {ε : Type}

/-- A plan tells the truth exactly when no chunk that the client lacks was kept from it in
another depot, and whatever costs nothing is there already; a preview exactly when whatever
costs nothing has not changed. -/
theorem install_plan_iff (v : View ε) (len : String → Nat) (sized : v.Sized len) (bounded : v.Bounded len) :
    (∀ (args : InstallPlanArgs) (r : Request) (plan : InstallPlan), resolve v args = .ok r →
      installPlan v args = .ok plan →
        (PlanTells v len r plan ↔ r.NothingWithheld v len ∧ r.NothingMoved v len)) ∧
    ∀ (branch build : String) (candidate current : Build) (rows : List DepotDelta),
      previewBuilds v branch build = .ok (candidate, some current) →
      branchPromotePreview v branch build = .ok (some rows) →
        (PreviewTells v candidate current rows ↔ NothingDropped v len candidate current) := by
  constructor
  · intro args r plan resolved planned
    obtain ⟨spec, total⟩ := installPlan_spec sized bounded resolved planned
    exact planTells_iff bounded spec total
  · intro branch build candidate current rows builds shown
    obtain ⟨found, again, run⟩ := ok_of_then shown
    obtain rfl : (candidate, some current) = found := Except.ok.inj (builds.symm.trans again)
    obtain ⟨written, ran, made⟩ := ok_of_then run
    obtain rfl : written ++ removedRows candidate current = rows := Option.some.inj (Except.ok.inj made)
    exact previewTells_iff sized bounded ran

/-- Two depots of equal content, for two platforms. The second is in the new build only. -/
def sampleView : View Unit where
  appId := "game"
  app := .ok ⟨"game", "Game", [⟨"win", "Windows", some .windows, none, false⟩, ⟨"linux", "Linux", some .linux, none, false⟩],
    [⟨"stable", "Stable", .public, some "build_1001", ["build_1001"]⟩]⟩
  build := fun id =>
    if id = "build_1001" then .ok ⟨id, none, 0, [⟨"win", "dist/win", 5, 1⟩]⟩
    else if id = "build_1002" then .ok ⟨id, none, 0, [⟨"win", "dist/win", 5, 1⟩, ⟨"linux", "dist/linux", 5, 1⟩]⟩
    else .error ()
  index := fun _ depot =>
    if depot = "win" ∨ depot = "linux" then .ok ⟨depot, 5, (∅ : Std.ExtTreeMap _ _).insert "game.bin" [("chunk", 5)]⟩
    else .error ()

/-- The new build has a map more for Windows. -/
def grownView : View Unit where
  appId := sampleView.appId
  app := sampleView.app
  build := sampleView.build
  index := fun build depot =>
    if build = "build_1002" ∧ depot = "win" then
      .ok ⟨depot, 12, ((∅ : Std.ExtTreeMap _ _).insert "game.bin" [("chunk", 5)]).insert "map.bin" [("more", 7)]⟩
    else sampleView.index build depot

theorem View.sized_bounded {v : View ε} {len : String → Nat} (known : List (String × Nat))
    (each : ∀ build depot index, v.index build depot = .ok index → indexChunks index ⊆ known)
    (lens : ∀ c ∈ known, c.2 = len c.1) (word : ∑ h ∈ (known.map Prod.fst).toFinset, len h < 2 ^ 64) :
    v.Sized len ∧ v.Bounded len := by
  refine ⟨fun build depot index found c mem => lens c (each build depot index found mem), fun s inside => ?_⟩
  refine Nat.lt_of_le_of_lt (Finset.sum_le_sum_of_subset fun h mem => ?_) word
  obtain ⟨build, depot, there⟩ := inside h mem
  rw [hashesAt] at there
  cases found : v.index build depot with
  | error e =>
    rw [found] at there
    cases there
  | ok index =>
    rw [found] at there
    obtain ⟨c, listed, rfl⟩ := List.mem_map.mp (List.mem_toFinset.mp there)
    exact List.mem_toFinset.mpr (List.mem_map_of_mem (each build depot index found listed))

theorem sampleView_chunks {build depot : String} {index : DepotIndex} (found : sampleView.index build depot = .ok index) :
    indexChunks index = [("chunk", 5)] := by
  simp only [sampleView] at found
  split at found
  case isFalse => cases found
  case isTrue =>
    obtain rfl := Except.ok.inj found
    rfl

theorem sampleView_fits : sampleView.Sized (fun _ => 5) ∧ sampleView.Bounded fun _ => 5 := by
  refine View.sized_bounded [("chunk", 5)] (fun build depot index found => ?_) (by decide) (by decide)
  rw [sampleView_chunks found]
  exact List.Subset.refl _

def grownLen (h : String) : Nat := if h = "more" then 7 else 5

theorem grownView_fits : grownView.Sized grownLen ∧ grownView.Bounded grownLen := by
  refine View.sized_bounded [("chunk", 5), ("more", 7)] (fun build depot index found => ?_) (by decide) (by decide)
  simp only [grownView] at found
  split at found
  case isTrue =>
    obtain rfl := Except.ok.inj found
    exact List.Subset.refl _
  case isFalse =>
    rw [sampleView_chunks found]
    exact List.subset_append_left _ _

def sampleArgs (platform : String) : InstallPlanArgs :=
  ⟨none, some platform, none, [], some "build_1001", some "build_1002"⟩

/-- A client on Windows lacks the map, and the plan and the preview say so. -/
theorem install_plan_grown :
    (∃ r plan, resolve grownView (sampleArgs "windows") = .ok r ∧
      installPlan grownView (sampleArgs "windows") = .ok plan ∧ plan.totalBytes = 7 ∧ PlanTells grownView grownLen r plan) ∧
    ∃ candidate current rows, previewBuilds grownView "stable" "build_1002" = .ok (candidate, some current) ∧
      branchPromotePreview grownView "stable" "build_1002" = .ok (some rows) ∧
      PreviewTells grownView candidate current rows := by
  obtain ⟨plans, previews⟩ := install_plan_iff grownView grownLen grownView_fits.1 grownView_fits.2
  constructor
  · refine ⟨_, _, rfl, rfl, rfl, (plans (sampleArgs "windows") _ _ rfl rfl).mpr ⟨?_, ?_⟩⟩
    · intro h wanted full held
      exact held
    · intro i db there before
      cases i with
      | zero =>
        obtain rfl := Option.some.inj there
        exact absurd (before "more" (by decide +kernel) (by decide)) (by decide +kernel)
      | succ i => cases there
  · refine ⟨_, _, _, rfl, rfl, (previews "stable" "build_1002" _ _ _ rfl rfl).mpr ?_⟩
    rintro db listed ⟨d, there, same⟩ old new was found gained
    obtain rfl := List.mem_singleton.mp there
    rw [← same] at was found
    obtain rfl := Except.ok.inj was
    obtain rfl := Except.ok.inj found
    exact absurd (gained "more" (by decide +kernel) (by decide)) (by decide +kernel)

/-- A client on Linux has nothing of the old build: the depot it receives lies there in the
depot for Windows, and its plan says that there is nothing to fetch. -/
theorem not_install_plan :
    ¬ ∀ (v : View Unit) (len : String → Nat) (args : InstallPlanArgs) (r : Request) (plan : InstallPlan),
      v.Sized len → v.Bounded len → resolve v args = .ok r → installPlan v args = .ok plan → PlanTells v len r plan := by
  intro tells
  have told := tells sampleView (fun _ => 5) (sampleArgs "linux") _ _ sampleView_fits.1 sampleView_fits.2 rfl rfl
  obtain ⟨build, db, old, new, there, listed, -, named, -⟩ := (told.actions _ List.mem_cons_self).mp rfl
  obtain rfl := Option.some.inj there
  obtain rfl := List.mem_singleton.mp listed
  exact absurd named (by decide)

end Settled

end Cavs.ClientPlan
