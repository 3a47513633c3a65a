import Cavs.Codecs
import Cavs.WorkspaceCalls
import Mathlib.Tactic.DeriveCountable

/-!
# Histories of a workspace

In a history that keeps clear of a few traps the files show what was asked for: the builds
in the order they were made with their indexes, and every branch at the end of its history.
-/
namespace Cavs.Workspace
open FileProg (Bytes IoError Op World Eff)
open Std (ExtTreeMap)
open FileProg.Eff (All Wp forEach op orThrow throw wp_iff)
open FileProg (get_put)

section History
variable (c : WorkspaceCodec) (appId : String)

def Call.app : Call → String
  | .addDepot app _ | .addBranch app _ | .createBuild app .. | .promote app .. | .rollback app .. => app

/-- A condition on a call, on the operations that may fail in it and on the files before it. -/
abbrev Condition :=
  Spelling → (Op WorkspacePath Unit → WorkspaceDisk → Prop) → WorkspaceDisk → Registry → Call → Prop

/-- What a call must avoid: an app of another place; a branch that says it was elsewhere;
an id with a fifth digit; a branch that does not exist, or whose new record cannot be
stored once the build is recorded; an index that an earlier creation left behind; a build by
another name than its id. -/
structure Meets (sp : Spelling) (mayFail : Op WorkspacePath Unit → WorkspaceDisk → Prop) (w : WorkspaceDisk) (R : Registry)
    (call : Call) : Prop where
  leads : sp.app call.app = appId ∨ w.get (.app (sp.app call.app)) = none
  branch : ∀ a b, call = .addBranch a b → Placed R.log b
  few : ∀ a l b s t, call = .createBuild a l b s t → R.log.length < 8999
  known : ∀ a l b s t, call = .createBuild a l (some b) s t → (∃ x ∈ R.app.branches, x.id = b) ∧ Savable mayFail appId
  clear : ∀ a l b s t, call = .createBuild a l b s t → ∀ depot,
    (w.get (.index appId (buildId (1001 + R.log.length)) depot)).isSome → depot ∈ s.map Source.depotId
  spelled : ∀ a b id, call = .promote a b id ∨ call = .rollback a b id →
    isPart id = true ∨ w.get (.build appId (sp.build id)) = none

/-- The files after a history of calls that meet a condition, and what was asked for with
success. No build is recorded where the workspace begins. -/
inductive Reached (P : Condition) : WorkspaceDisk → Registry → Prop
  | init {sp mayFail w v} (fresh : ∀ id, isPart id = true → w.get (.build appId id) = none)
      (run : (init c sp appId).Runs (workspaceSem mayFail) () w (.ok ()) () v) :
      Reached P v ⟨⟨appId, appId, [], []⟩, []⟩
  | done {sp mayFail w R call made v} (before : Reached P w R) (meets : P sp mayFail w R call)
      (run : (perform c sp call).Runs (workspaceSem mayFail) () w (.ok made) () v) : Reached P v (effect c made R call)
  | refused {sp mayFail w R call e v} (before : Reached P w R) (meets : P sp mayFail w R call)
      (run : (perform c sp call).Runs (workspaceSem mayFail) () w (.error e) () v) : Reached P v R

/-- Left alone, a method gives this answer. -/
def Answers {α : Type} (m : F α) (w : WorkspaceDisk) (r : Except WorkspaceError α) : Prop :=
  (∃ t v, m.Runs (workspaceSem fun _ _ => False) () w r t v) ∧
    ∀ r' t v, m.Runs (workspaceSem fun _ _ => False) () w r' t v → r' = r

/-- What the files show is the registry. -/
structure Shows (sp : Spelling) (w : WorkspaceDisk) (R : Registry) : Prop where
  distinct : (R.log.map fun x => x.build.id).Nodup
  listed : Answers (builds c sp appId) w (.ok (R.log.map Created.build))
  app : Answers (loadApp c sp appId) w (.ok R.app)
  branches : ∀ b ∈ R.app.branches, b.currentBuild = b.history.getLast? ∧
    ∀ id, b.currentBuild = some id → ∃ x ∈ R.log, x.build.id = id
  indexed : ∀ x ∈ R.log, ∀ depot, validId depot = true → ∀ index,
    x.index depot = some index ↔ Answers (depotIndex c sp appId x.build.id depot) w (.ok index)

end History

section Main
variable {c : WorkspaceCodec} {sp : Spelling} {appId : String} {R : Registry} {w v : WorkspaceDisk}
  {mayFail : Op WorkspacePath Unit → WorkspaceDisk → Prop}

/-- One call that keeps clear of the traps keeps the files true to the registry. -/
theorem perform_wp {call : Call} (part : isPart appId = true) (rep : Represents c appId w R)
    (meets : Meets appId sp mayFail w R call) :
    (perform c sp call).Wp (workspaceSem mayFail) (fun _ => True) (fun r _ v => match r with
      | .ok made => Represents c appId v (effect c made R call)
      | .error _ => Represents c appId v R) () w := by
  cases call with
  | addDepot a depot =>
      refine Wp.seq (addDepot_wp part rep meets.leads) ?_ fun e _ v kept => kept
      exact fun ⟨⟩ _ v _ stored => ⟨trivial, stored⟩
  | addBranch a branch =>
      refine Wp.seq (addBranch_wp part rep meets.leads (meets.branch _ _ rfl)) ?_ fun e _ v kept => kept
      exact fun ⟨⟩ _ v _ stored => ⟨trivial, stored⟩
  | createBuild a label branch sources createdAt =>
      refine Wp.seq (createBuild_wp part rep meets.leads (meets.few _ _ _ _ _ rfl) ?_ (meets.clear _ _ _ _ _ rfl)) ?_
        fun e _ v kept => kept
      · rintro branchId rfl
        exact meets.known _ _ _ _ _ rfl
      · exact fun build _ v _ stored => ⟨trivial, stored⟩
  | promote a branchId id =>
      refine Wp.seq (promote_wp part rep meets.leads (meets.spelled _ _ _ (.inl rfl))) ?_ fun e _ v kept => kept
      exact fun ⟨⟩ _ v _ stored => ⟨trivial, stored⟩
  | rollback a branchId id =>
      refine Wp.seq (rollback_wp part rep meets.leads (meets.spelled _ _ _ (.inr rfl))) ?_ fun e _ v kept => kept
      exact fun ⟨⟩ _ v _ stored => ⟨trivial, stored⟩

theorem Reached.represents (reached : Reached c appId (Meets appId) w R) : isPart appId = true ∧ Represents c appId w R := by
  induction reached with
  | init fresh run => exact ((wp_iff _ _ _).mp (init_wp fresh)).2 _ _ _ run rfl
  | done before meets run ih | refused before meets run ih =>
      exact ⟨ih.1, ((wp_iff _ _ _).mp (perform_wp ih.1 ih.2 meets)).2 _ _ _ run⟩

/-- A method with only plain operations, all of whose outcomes are the same. -/
theorem answers_of_wp {α : Type} {m : F α} {r : Except WorkspaceError α} (plain : m.All Op.Plain)
    (ends : m.Wp (workspaceSem fun _ _ => False) (fun _ => True) (fun r' _ _ => r' = r) () w) : Answers m w r := by
  have outcome := ((wp_iff _ _ _).mp ends).2
  obtain ⟨r', t, v, run⟩ := All.runs plain () w
  obtain rfl := outcome _ _ _ run
  exact ⟨⟨t, v, run⟩, outcome⟩

theorem loadApp_plain (a : String) : (loadApp c sp a).All Op.Plain := by
  rw [loadApp]
  apply All.bind (.op trivial)
  intro r
  cases r with
  | error e => exact .throw _
  | ok raw =>
      dsimp only
      split
      · exact .throw _
      · exact .pure _

theorem readBuild_plain (app id : String) : (readBuild c app id).All Op.Plain := by
  rw [readBuild]
  apply All.bind (.op trivial)
  intro r
  apply All.bind (.orThrow _ _)
  intro raw
  split
  · exact .throw _
  · exact .pure _

theorem readBuilds_plain (entries : List WorkspacePath) : (readBuilds c entries).All Op.Plain := by
  induction entries with
  | nil => exact .pure _
  | cons r rest ih =>
      cases r with
      | buildDir app id =>
          rw [readBuilds]
          apply All.bind (.op trivial)
          intro there
          split
          · exact .bind (readBuild_plain app id) fun _ => .bind ih fun _ => .pure _
          · exact ih
      | _ => exact ih

theorem builds_plain (a : String) : (builds c sp a).All Op.Plain := by
  rw [builds]
  apply All.bind (.op trivial)
  intro there
  split
  · apply All.bind (.op trivial)
    intro r
    apply All.bind (.orThrow _ _)
    intro entries
    exact .bind (readBuilds_plain entries) fun _ => .pure _
  · exact .pure _

theorem depotIndex_plain (a id depot : String) : (depotIndex c sp a id depot).All Op.Plain := by
  rw [depotIndex]
  apply All.bind (.op trivial)
  intro there
  split
  · apply All.bind (.op trivial)
    intro r
    apply All.bind (.orThrow _ _)
    intro raw
    split
    · exact .throw _
    · exact .pure _
  · exact .throw _

/-- Files that stand for a registry show it. -/
theorem Represents.shows (part : isPart appId = true) (rep : Represents c appId w R) (sp : Spelling) :
    Shows c appId sp w R := by
  have here := sp.app_part _ part
  constructor
  case distinct => exact rep.numbered.nodup (by rw [List.length_map]; exact rep.few)
  case listed =>
      refine answers_of_wp (builds_plain appId) (Wp.mono (builds_wp rep here) (fun _ c => c) ?_)
      rintro (e | l) _ v ⟨-, result⟩
      · obtain ⟨_, _, impossible⟩ := result
        exact impossible.elim
      · exact congrArg _ result
  case app =>
      refine answers_of_wp (loadApp_plain appId) (Wp.mono (loadApp_wp rep (.inl here)) (fun _ c => c) ?_)
      rintro (e | app) _ v ⟨-, result⟩
      · obtain ⟨_, _, impossible⟩ := result here
        exact impossible.elim
      · exact congrArg _ result.1
  case branches => exact rep.branches
  case indexed =>
      intro x mem depot _ index
      constructor
      · intro given
        refine answers_of_wp (depotIndex_plain appId x.build.id depot) (Wp.mono (depotIndex_wp rep mem here depot) (fun _ c => c) ?_)
        rintro (e | found) _ v ⟨-, result⟩
        · rcases result with absent | ⟨_, _, impossible⟩
          · rw [given] at absent
            cases absent
          · exact impossible.elim
        · rw [given] at result
          cases result
          rfl
      · rintro ⟨⟨t, v, run⟩, -⟩
        exact (((wp_iff _ _ _).mp (depotIndex_wp rep mem here depot)).2 _ _ _ run).2

/-- In every history whose calls keep clear of the traps the files show what was asked for
with success; so a call that fails changes nothing that is shown. -/
theorem workspace_shows (c : WorkspaceCodec) (appId : String) (sp : Spelling) (w : WorkspaceDisk) (R : Registry)
    (reached : Reached c appId (Meets appId) w R) : Shows c appId sp w R := by
  obtain ⟨part, rep⟩ := reached.represents
  exact rep.shows part sp

end Main

section Sample

deriving instance Countable for Platform
deriving instance Countable for BranchVisibility
deriving instance Countable for Depot
deriving instance Countable for Branch
deriving instance Countable for App
deriving instance Countable for DepotBuild
deriving instance Countable for Build

instance : Countable DepotIndex :=
  Function.Injective.countable (f := fun i : DepotIndex => (i.depotId, i.totalBytes, i.files.toList)) fun a b same => by
    cases a
    cases b
    simpa [ExtTreeMap.toList_inj] using same

/-- Documents that are numbers, and files of one chunk. -/
noncomputable def countingWorkspace : WorkspaceCodec where
  configToml _ := []
  appToml := unary
  appFromToml raw := (ofUnary App raw).toOption
  appFromToml_appToml a := by rw [ofUnary_unary]; rfl
  buildToml b := some (unary b)
  buildFromToml raw := (ofUnary Build raw).toOption
  buildFromToml_buildToml b raw same := by
    cases same
    rw [ofUnary_unary]
    rfl
  indexJson := unary
  indexFromJson raw := (ofUnary DepotIndex raw).toOption
  indexFromJson_indexJson i := by rw [ofUnary_unary]; rfl
  chunks b := [("", b.length)]

/-- Every text is the name of a directory of its own. -/
def literal : Spelling := ⟨id, id, fun _ _ => rfl, fun _ _ => rfl⟩

def base : Depot := ⟨"base", "base", none, none, false⟩

def baseSource : Source := ⟨"base", "/content", .ok [("a.bin", [1])]⟩

def gameApp (depots : List Depot) (branches : List Branch) : App := ⟨"game", "game", depots, branches⟩

/-- What is left when a file was written beside its place and renamed. -/
def replaced (w : WorkspaceDisk) (tmp path : WorkspacePath) (bytes : Bytes) : WorkspaceDisk :=
  (w.put tmp bytes 0).move tmp path ⟨bytes, 0⟩

theorem get_over (w : WorkspaceDisk) {tmp path q : WorkspacePath} (bytes : Bytes) (apart : q ≠ tmp) :
    (replaced w tmp path bytes).get q = if q = path then some ⟨bytes, 0⟩ else w.get q := by
  rw [replaced, FileProg.get_move, get_put, if_neg apart, if_neg apart]

theorem writeAtomic_ends (w : WorkspaceDisk) (tmp path : WorkspacePath) (bytes : Bytes) :
    (writeAtomic tmp path bytes).Ends () w (.ok ()) () (replaced w tmp path bytes) := by
  refine .bind (b := .ok ()) (v := w.put tmp bytes 0) rfl (.bind (b := ()) rfl ?_)
  exact .bind (.rename (FileProg.get_put_self ..)) rfl

variable {c : WorkspaceCodec} {w : WorkspaceDisk} {app : App} {f : FileProg.File}

theorem loadApp_ends {a : String} (there : w.get (.app a) = some f) (holds : c.appFromToml f.bytes = some app) :
    (loadApp c literal a).Ends () w (.ok app) () w := by
  refine .bind (.read there) ?_
  dsimp only
  rw [holds]
  rfl

theorem saveApp_ends (dirs : (w.get (.buildsDir app.id)).isSome) :
    (saveApp c literal app).Ends () w (.ok ()) () (replaced w (.appTmp app.id) (.app app.id) (c.appToml app)) := by
  obtain ⟨g, there⟩ := Option.isSome_iff_exists.mp dirs
  exact .bind (.mkdir_old there) (.bind (b := ()) rfl (writeAtomic_ends ..))

/-- A new workspace. -/
noncomputable def startDisk (c : WorkspaceCodec) : WorkspaceDisk :=
  replaced (replaced (((World.empty : WorkspaceDisk).put (.buildsDir "game") [] 0).put (.reportsDir "game") [] 0) .configTmp .config
    (c.configToml ⟨1, "game"⟩)) (.appTmp "game") (.app "game") (c.appToml (gameApp [] []))

theorem init_ends : (init c literal "game").Ends () World.empty (.ok ()) () (startDisk c) := by
  refine .bind (b := false) (t := ()) (v := World.empty) rfl (.bind (b := ()) (t := ()) (v := World.empty) rfl ?_)
  refine .bind (b := .ok ()) (t := ()) (v := (World.empty : WorkspaceDisk).put (.buildsDir "game") [] 0) rfl
    (.bind (b := ()) rfl ?_)
  refine .bind (b := .ok ()) (t := ())
    (v := ((World.empty : WorkspaceDisk).put (.buildsDir "game") [] 0).put (.reportsDir "game") [] 0) rfl
    (.bind (b := ()) rfl ?_)
  refine .bind (writeAtomic_ends ..) (saveApp_ends ?_)
  simp [get_over, get_put]

theorem addDepot_ends (there : w.get (.app "game") = some f) (holds : c.appFromToml f.bytes = some app)
    (named : app.id = "game") (none_yet : app.depots = []) (dirs : (w.get (.buildsDir "game")).isSome) :
    (addDepot c literal "game" base).Ends () w (.ok ()) ()
      (replaced w (.appTmp "game") (.app "game") (c.appToml { app with depots := [base] })) := by
  refine .bind (b := ()) (t := ()) (v := w) rfl (.bind (loadApp_ends there holds) ?_)
  rw [none_yet]
  have saved := @saveApp_ends c w { app with depots := [base] } (named ▸ dirs)
  exact named ▸ saved

/-- The build that is made first. -/
def firstBuild : Build := ⟨"build_1001", none, 1, [⟨"base", "/content", 1, 1⟩]⟩

/-- The files after the depot of the first build was indexed. -/
def indexDisk (c : WorkspaceCodec) (w : WorkspaceDisk) : WorkspaceDisk :=
  replaced (w.put (.buildDir "game" "build_1001") [] 0) (.indexTmp "game" "build_1001" "base")
    (.index "game" "build_1001" "base") (c.indexJson (DepotIndex.scan c "base" [("a.bin", [1])]))

/-- The files after the first build was recorded. -/
def buildDisk (c : WorkspaceCodec) (w : WorkspaceDisk) (raw : Bytes) : WorkspaceDisk :=
  replaced (indexDisk c w) (.buildTmp "game" "build_1001") (.build "game" "build_1001") raw

theorem indexDepots_ends : (indexDepots c "game" "build_1001" [baseSource]).Ends ()
    (w.put (.buildDir "game" "build_1001") [] 0) (.ok firstBuild.depots) () (indexDisk c w) := by
  have one : (DepotIndex.scan c "base" [("a.bin", [1])]).files.size = 1 := by
    simp [DepotIndex.scan, ExtTreeMap.size_insert]
  refine .bind (b := ⟨"base", "/content", 1, 1⟩) (t := ()) (v := indexDisk c w) ?_ rfl
  refine .bind (b := [("a.bin", [1])]) rfl (.bind (writeAtomic_ends ..) ?_)
  change (pure ⟨"base", "/content", 1, (DepotIndex.scan c "base" [("a.bin", [1])]).files.size⟩ : F DepotBuild).Ends _ _ _ _ _
  rw [one]
  rfl

theorem createBuild_ends {branch : Option String} {raw : Bytes} {r : Except WorkspaceError Build} {v : WorkspaceDisk}
    (there : w.get (.app "game") = some f) (holds : c.appFromToml f.bytes = some app) (depots : app.depots = [base])
    (dirs : w.get (.buildsDir "game") = some ⟨[], 0⟩) (unlisted : w.files.keys.filter (inBuilds "game") = [])
    (new : w.get (.buildDir "game" "build_1001") = none) (spelled : c.buildToml firstBuild = some raw)
    (tail : (match branch with
      | none => pure firstBuild
      | some branchId => do
          saveApp c literal (← app.point branchId "build_1001")
          return firstBuild : F Build).Ends () (buildDisk c w raw) r () v) :
    (createBuild c literal "game" none branch [baseSource] 1).Ends () w r () v := by
  rw [createBuild]
  refine .bind (loadApp_ends there holds) ?_
  rw [if_neg (List.cons_ne_nil _ _)]
  refine .bind (b := ()) (t := ()) (v := w) ?_ ?_
  · rw [forEach, App.depot, depots]
    rfl
  refine .bind (b := []) (t := ()) (v := w) ?_ ?_
  · rw [builds]
    refine .bind (.present dirs) ?_
    rw [if_pos rfl]
    exact .bind (.list unlisted) rfl
  have next : nextBuildId [] = "build_1001" := by decide +kernel
  dsimp only
  rw [next]
  refine .bind (.mkdir_new new) (.bind (b := ()) rfl ?_)
  refine .bind indexDepots_ends ?_
  rw [show c.buildToml ⟨"build_1001", none, 1, firstBuild.depots⟩ = some raw from spelled]
  exact .bind (writeAtomic_ends ..) tail

def live : Branch := ⟨"live", "live", .public, none, []⟩

/-- The files of the workspace with one depot. -/
noncomputable def depotDisk (c : WorkspaceCodec) : WorkspaceDisk :=
  replaced (startDisk c) (.appTmp "game") (.app "game") (c.appToml (gameApp [base] []))

/-- The files of the workspace with one depot and one branch. -/
noncomputable def branchDisk (c : WorkspaceCodec) : WorkspaceDisk :=
  replaced (depotDisk c) (.appTmp "game") (.app "game") (c.appToml (gameApp [base] [live]))

theorem startDisk_app : (startDisk c).get (.app "game") = some ⟨c.appToml (gameApp [] []), 0⟩ := by
  simp [startDisk, get_over]

theorem depotDisk_app : (depotDisk c).get (.app "game") = some ⟨c.appToml (gameApp [base] []), 0⟩ := by
  simp [depotDisk, get_over]

theorem branchDisk_app : (branchDisk c).get (.app "game") = some ⟨c.appToml (gameApp [base] [live]), 0⟩ := by
  simp [branchDisk, get_over]

theorem startDisk_dirs : (startDisk c).get (.buildsDir "game") = some ⟨[], 0⟩ := by
  simp [startDisk, get_over, get_put]

theorem addBranch_ends : (addBranch c literal "game" live).Ends () (depotDisk c) (.ok ()) () (branchDisk c) := by
  refine .bind (b := ()) (t := ()) (v := depotDisk c) rfl
    (.bind (loadApp_ends depotDisk_app (c.appFromToml_appToml _)) ?_)
  apply @saveApp_ends c (depotDisk c) (gameApp [base] [live])
  simp [depotDisk, gameApp, get_over, startDisk_dirs]

/-- No operation fails. -/
def calm : Op WorkspacePath Unit → WorkspaceDisk → Prop := fun _ _ => False

theorem started (P : Condition) : Reached c "game" P (startDisk c) ⟨gameApp [] [], []⟩ :=
  @Reached.init c "game" P literal calm _ _ (fun _ _ => FileProg.get_empty _) (init_ends.runs fun _ => rfl)

theorem savable_calm : Savable calm "game" := by
  constructor
  · rintro ⟨_, _, impossible, _⟩
    exact impossible
  · rintro ⟨_, _, impossible, _⟩
    exact impossible

theorem meets_addDepot {R : Registry} (depot : Depot) : Meets "game" literal calm w R (.addDepot "game" depot) where
  leads := .inl rfl
  branch _ _ same := by cases same
  few _ _ _ _ _ same := by cases same
  known _ _ _ _ _ same := by cases same
  clear _ _ _ _ _ same := by cases same
  spelled _ _ _ same := by rcases same with same | same <;> cases same

theorem meets_addBranch {R : Registry} {branch : Branch} (placed : Placed R.log branch) :
    Meets "game" literal calm w R (.addBranch "game" branch) where
  leads := .inl rfl
  branch _ _ same := by
    cases same
    exact placed
  few _ _ _ _ _ same := by cases same
  known _ _ _ _ _ same := by cases same
  clear _ _ _ _ _ same := by cases same
  spelled _ _ _ same := by rcases same with same | same <;> cases same

theorem meets_createBuild {R : Registry} {branchId : String} (few : R.log.length < 8999)
    (known : ∃ b ∈ R.app.branches, b.id = branchId)
    (clear : ∀ depot, w.get (.index "game" (buildId (1001 + R.log.length)) depot) = none) :
    Meets "game" literal calm w R (.createBuild "game" none (some branchId) [baseSource] 1) where
  leads := .inl rfl
  branch _ _ same := by cases same
  few _ _ _ _ _ _ := few
  known _ _ _ _ _ same := by
    cases same
    exact ⟨known, savable_calm⟩
  clear _ _ _ _ _ _ depot there := by
    rw [clear depot] at there
    cases there
  spelled _ _ _ same := by rcases same with same | same <;> cases same

theorem deposited {P : Condition} (meets : P literal calm (startDisk c) ⟨gameApp [] [], []⟩ (.addDepot "game" base)) :
    Reached c "game" P (depotDisk c) ⟨gameApp [base] [], []⟩ := by
  refine @Reached.done c "game" P literal calm _ _ (.addDepot "game" base) none _ (started P) meets ?_
  refine Eff.Ends.runs (fun _ => rfl) (Eff.Ends.bind (addDepot_ends startDisk_app (c.appFromToml_appToml _) rfl rfl ?_) rfl)
  rw [startDisk_dirs]
  rfl

theorem branched : Reached c "game" (Meets "game") (branchDisk c) ⟨gameApp [base] [live], []⟩ := by
  have placed : Placed ([] : List Created) live := by
    refine ⟨rfl, fun id same => ?_⟩
    cases same
  refine @Reached.done c "game" _ literal calm _ _ (.addBranch "game" live) none _
    (deposited (meets_addDepot base)) (meets_addBranch placed) ?_
  exact Eff.Ends.runs (fun _ => rfl) (Eff.Ends.bind addBranch_ends rfl)

/-- The branch after the first build. -/
def liveNow : Branch := { live with currentBuild := some "build_1001", history := ["build_1001"] }

theorem built (spelled : ∃ raw, c.buildToml firstBuild = some raw) : ∃ w, Reached c "game" (Meets "game") w
    ⟨gameApp [base] [liveNow], [⟨firstBuild, indexesOf c [baseSource]⟩]⟩ := by
  obtain ⟨raw, spelled⟩ := spelled
  have meets : Meets "game" literal calm (branchDisk c) ⟨gameApp [base] [live], []⟩
      (.createBuild "game" none (some "live") [baseSource] 1) := by
    refine meets_createBuild (by decide) ⟨live, List.mem_cons_self, rfl⟩ fun depot => ?_
    simp [branchDisk, depotDisk, startDisk, get_over, get_put]
  have dirs : (branchDisk c).get (.buildsDir "game") = some ⟨[], 0⟩ := by
    simp [branchDisk, depotDisk, get_over, startDisk_dirs]
  have new : (branchDisk c).get (.buildDir "game" "build_1001") = none := by
    simp [branchDisk, depotDisk, startDisk, get_over, get_put]
  have dirs' : ((buildDisk c (branchDisk c) raw).get (.buildsDir "game")).isSome := by
    simp [buildDisk, indexDisk, get_over, get_put, dirs]
  refine ⟨replaced (buildDisk c (branchDisk c) raw) (.appTmp "game") (.app "game") (c.appToml (gameApp [base] [liveNow])),
    @Reached.done c "game" _ literal calm _ _ _ (some firstBuild) _ branched meets ?_⟩
  refine Eff.Ends.runs (fun _ => rfl) (Eff.Ends.bind (b := firstBuild) ?_ rfl)
  refine createBuild_ends branchDisk_app (c.appFromToml_appToml _) rfl dirs rfl new spelled ?_
  exact Eff.Ends.bind rfl (Eff.Ends.bind (@saveApp_ends c _ (gameApp [base] [liveNow]) dirs') rfl)

theorem workspace_shows_one : ∃ w, Shows countingWorkspace "game" literal w
    ⟨gameApp [base] [liveNow], [⟨firstBuild, indexesOf countingWorkspace [baseSource]⟩]⟩ := by
  obtain ⟨w, reached⟩ := built (c := countingWorkspace) ⟨_, rfl⟩
  exact ⟨w, workspace_shows countingWorkspace "game" literal w _ reached⟩

/-- A build is recorded before the branch it is for is looked up. -/
theorem workspace_hides : ¬ ∀ (c : WorkspaceCodec) (appId : String) (sp : Spelling) (w : WorkspaceDisk) (R : Registry),
    Reached c appId (fun _ _ _ _ _ => True) w R → Shows c appId sp w R := by
  intro shows
  let c := countingWorkspace
  have dirs : (depotDisk c).get (.buildsDir "game") = some ⟨[], 0⟩ := by
    simp [depotDisk, get_over, startDisk_dirs]
  have new : (depotDisk c).get (.buildDir "game" "build_1001") = none := by
    simp [depotDisk, startDisk, get_over, get_put]
  have refused : (perform c literal (.createBuild "game" none (some "live") [baseSource] 1)).Runs (workspaceSem calm) ()
      (depotDisk c) (.error (.branchNotFound "live" "game")) () (buildDisk c (depotDisk c) (unary firstBuild)) := by
    refine Eff.Ends.runs (fun _ => rfl) (Eff.Ends.bind_error ?_)
    refine createBuild_ends depotDisk_app (c.appFromToml_appToml _) rfl dirs rfl new rfl ?_
    exact Eff.Ends.bind_error rfl
  have reached : Reached c "game" (fun _ _ _ _ _ => True) (buildDisk c (depotDisk c) (unary firstBuild))
      ⟨gameApp [base] [], []⟩ := .refused (deposited trivial) trivial refused
  have listed : (builds c literal "game").Ends () (buildDisk c (depotDisk c) (unary firstBuild)) (.ok [firstBuild]) ()
      (buildDisk c (depotDisk c) (unary firstBuild)) := by
    have there : (buildDisk c (depotDisk c) (unary firstBuild)).get (.buildsDir "game") = some ⟨[], 0⟩ := by
      simp [buildDisk, indexDisk, get_over, get_put, dirs]
    have record : (buildDisk c (depotDisk c) (unary firstBuild)).get (.build "game" "build_1001") =
        some ⟨unary firstBuild, 0⟩ := by
      simp [buildDisk, get_over]
    have read : (readBuild c "game" "build_1001").Ends () (buildDisk c (depotDisk c) (unary firstBuild)) (.ok firstBuild) ()
        (buildDisk c (depotDisk c) (unary firstBuild)) := by
      refine .bind (.read record) (.bind (b := unary firstBuild) rfl ?_)
      rw [c.buildFromToml_buildToml firstBuild (unary firstBuild) rfl]
      rfl
    refine .bind (.present there) (.bind (.list rfl)
      (.bind (b := [.buildDir "game" "build_1001"]) rfl (.bind (b := [firstBuild]) ?_ rfl)))
    exact .bind (.present record) (.bind read (.bind (b := []) rfl rfl))
  have none_listed := (shows c "game" literal _ _ reached).listed.2 _ _ _ (listed.runs fun _ => rfl)
  cases none_listed

end Sample
end Cavs.Workspace
