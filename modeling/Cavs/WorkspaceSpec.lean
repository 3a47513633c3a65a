import Cavs.Decimal
import Cavs.Workspace
import Mathlib.Data.String.Basic

/-!
# What the calls of a workspace do

The files stand for a registry: the app and the builds in the order they were made. Every
call is specified by the registry before and after.
-/
namespace Cavs.Workspace
open FileProg (Bytes File IoError Op get_put_ne get_put_self)
open FileProg.Eff (After Wp forEach op orThrow throw wp_good wp_ite wp_list wp_present wp_read wp_rename
  wp_write)

/-- A build that was made, and the index written for each of its depots; of several the
last one counts. -/
structure Created where
  build : Build
  indexes : List (String × DepotIndex)

def Created.index (x : Created) (depot : String) : Option DepotIndex := x.indexes.reverse.lookup depot

/-- The app, and its builds in the order they were made. -/
structure Registry where
  app : App
  log : List Created

section Names

variable {ids : List String}

theorem buildNumber_buildId {n : Nat} (small : n < 2 ^ 64) : buildNumber (buildId n) = some n := by
  rw [buildNumber, buildId, String.toList_ofList, List.isPrefixOf?_eq_some_iff_append_eq.mpr rfl, Option.bind_some, parseU64_decimal small]

/-- As long as the numbers have four digits, the ids are ordered as the numbers. -/
theorem buildId_lt {m n : Nat} (four : 1000 ≤ m) (less : m < n) (four' : n < 10000) : buildId m < buildId n := by
  have long : ∀ k, 1000 ≤ k → k < 10000 → (decimal k).length = 4 := fun k above below =>
    decimal_length above below (by decide)
  have same : (decimal m).length = (decimal n).length := by
    rw [long m four (less.trans four'), long n (four.trans less.le) four']
  rw [String.lt_iff, buildId, buildId, String.toList_ofList, String.toList_ofList]
  exact List.append_left_lt (decimal_lt same less)

theorem validId_isPart {t : String} (valid : validId t = true) : isPart t = true := by
  rw [validId, Bool.and_eq_true, List.all_eq_true] at valid
  obtain ⟨filled, plain⟩ := valid
  have slash : isIdChar '/' = false := by decide
  have dot : isIdChar '.' = false := by decide
  have no_dot : '.' ∉ t.toList := fun mem => by
    rw [plain _ mem] at dot
    cases dot
  rw [isPart, Bool.and_eq_true, Bool.and_eq_true, Bool.and_eq_true, List.all_eq_true]
  refine ⟨⟨⟨filled, ?_⟩, ?_⟩, ?_⟩
  · rw [bne_iff_ne]
    rintro rfl
    exact no_dot (by decide)
  · rw [bne_iff_ne]
    rintro rfl
    exact no_dot (by decide)
  · intro ch mem
    rw [bne_iff_ne]
    rintro rfl
    rw [plain _ mem] at slash
    cases slash

theorem validId_buildId (n : Nat) : validId (buildId n) = true := by
  have digits : ∀ ch ∈ decimal n, isIdChar ch = true := by
    intro ch mem
    have digit := decimal_isDigit mem
    simp [isIdChar, Char.isAlphanum, digit]
  rw [validId, Bool.and_eq_true, List.all_eq_true, buildId, String.toList_ofList]
  constructor
  · rw [bne_iff_ne, ne_eq, ← String.toList_inj, String.toList_ofList]
    exact List.cons_ne_nil _ _
  · intro ch mem
    rcases List.mem_append.mp mem with front | back
    · have letters : ∀ c ∈ buildPrefix, isIdChar c = true := List.all_eq_true.mp rfl
      exact letters ch front
    · exact digits ch back

theorem isPart_buildId (n : Nat) : isPart (buildId n) = true := validId_isPart (validId_buildId n)

/-- The ids are given out one after another. -/
def Numbered (ids : List String) : Prop := ids = (List.range ids.length).map fun i => buildId (1001 + i)

theorem Numbered.nil : Numbered [] := rfl

theorem Numbered.add (numbered : Numbered ids) : Numbered (ids ++ [buildId (1001 + ids.length)]) := by
  have long : (ids ++ [buildId (1001 + ids.length)]).length = ids.length + 1 := List.length_append
  rw [Numbered, long, List.range_succ, List.map_append, ← numbered]
  rfl

theorem Numbered.getElem? (numbered : Numbered ids) {id : String} (mem : id ∈ ids) :
    ∃ i < ids.length, id = buildId (1001 + i) := by
  rw [numbered] at mem
  obtain ⟨i, small, rfl⟩ := List.mem_map.mp mem
  exact ⟨i, List.mem_range.mp small, rfl⟩

theorem max?_counted (n : Nat) : ((List.range n).map fun i => 1001 + i).max?.getD 1000 = 1000 + n := by
  cases n with
  | zero => rfl
  | succ n =>
      have top : ((List.range (n + 1)).map fun i => 1001 + i).max? = some (1001 + n) := by
        rw [List.max?_eq_some_iff]
        constructor
        · exact List.mem_map.mpr ⟨n, List.self_mem_range_succ, rfl⟩
        · intro k mem
          obtain ⟨i, small, rfl⟩ := List.mem_map.mp mem
          have := List.mem_range.mp small
          omega
      rw [top, Option.getD_some]
      omega

theorem nextBuildId_numbered {l : List Build} (numbered : Numbered (l.map Build.id)) (few : l.length ≤ 8999) :
    nextBuildId l = buildId (1001 + l.length) := by
  have numbers : (l.filterMap fun b => buildNumber b.id) = (List.range l.length).map fun i => 1001 + i := by
    have byIds : (l.filterMap fun b => buildNumber b.id) = (l.map Build.id).filterMap buildNumber := by
      rw [List.filterMap_map]
      rfl
    rw [byIds, numbered, List.length_map, List.filterMap_map, ← List.filterMap_eq_map]
    apply List.filterMap_congr
    intro i mem
    have := List.mem_range.mp mem
    exact buildNumber_buildId (by omega)
  rw [nextBuildId, numbers, max?_counted, wordAdd_eq (by omega), Nat.add_right_comm]

/-- Four digits are enough for as many ids. -/
theorem Numbered.ordered (numbered : Numbered ids) (few : ids.length ≤ 8999) :
    ids.Pairwise (· < ·) := by
  rw [numbered, List.pairwise_map]
  refine List.pairwise_lt_range.imp_of_mem ?_
  intro i j _ there less
  have := List.mem_range.mp there
  exact buildId_lt (by omega) (by omega) (by omega)

theorem Numbered.nodup (numbered : Numbered ids) (few : ids.length ≤ 8999) : ids.Nodup :=
  (numbered.ordered few).imp fun less same => by
    subst same
    exact absurd less (String.lt_irrefl _)

/-- Sorting the builds by their ids gives the order in which they were made. -/
theorem sorted_numbered {l found : List Build} (perm : found.Perm l) (numbered : Numbered (l.map Build.id))
    (few : l.length ≤ 8999) : (found.insertionSort fun a b => decide (a.id ≤ b.id)) = l := by
  have ordered : l.Pairwise fun a b => a.id < b.id :=
    List.pairwise_map.mp (numbered.ordered (by rwa [List.length_map]))
  have sorted := List.pairwise_insertionSort (fun a b : Build => decide (a.id ≤ b.id)) found
  have perm := (List.perm_insertionSort (fun a b : Build => decide (a.id ≤ b.id)) found).trans perm
  have strict : (found.insertionSort fun a b => decide (a.id ≤ b.id)).Pairwise fun a b => a.id < b.id := by
    have distinct := (perm.map Build.id).nodup_iff.mpr (numbered.nodup (by rwa [List.length_map]))
    refine (sorted.and (List.pairwise_map.mp distinct)).imp ?_
    rintro a b ⟨before, different⟩
    exact lt_of_le_of_ne (of_decide_eq_true before) different
  exact perm.eq_of_pairwise (fun a b _ _ first second => absurd (first.trans second) (String.lt_irrefl _)) strict ordered

end Names

section Registry
variable (c : WorkspaceCodec)

/-- The indexes of the sources that can be read. -/
def indexesOf (sources : List Source) : List (String × DepotIndex) :=
  sources.filterMap fun s => s.files.toOption.map fun files => (s.depotId, DepotIndex.scan c s.depotId files)

def App.pointing (app : App) (branchId buildId : String) : App :=
  match pointBranch branchId buildId app.branches with
  | some branches => { app with branches }
  | none => app

/-- What a call that succeeds does to the registry; a creation returns the build it made. -/
def effect (made : Option Build) (R : Registry) : Call → Registry
  | .addDepot _ depot => { R with app := { R.app with depots := R.app.depots ++ [depot] } }
  | .addBranch _ branch => { R with app := { R.app with branches := R.app.branches ++ [branch] } }
  | .createBuild _ _ branch sources _ => match made with
    | none => R
    | some b => ⟨branch.elim R.app fun branchId => R.app.pointing branchId b.id, R.log ++ [⟨b, indexesOf c sources⟩]⟩
  | .promote _ branchId buildId | .rollback _ branchId buildId => { R with app := R.app.pointing branchId buildId }

/-- A branch is at the last build of its history, which was made. -/
def Placed (log : List Created) (b : Branch) : Prop :=
  b.currentBuild = b.history.getLast? ∧ ∀ id, b.currentBuild = some id → ∃ x ∈ log, x.build.id = id

/-- The file of an index is there if and only if there is an index, and it holds it. -/
def Holds : Option File → Option DepotIndex → Prop
  | some f, some index => c.indexFromJson f.bytes = some index
  | none, none => True
  | _, _ => False

/-- The files of the app stand for the registry. -/
structure Represents (appId : String) (w : WorkspaceDisk) (R : Registry) : Prop where
  named : R.app.id = appId
  stored : ∃ f, w.get (.app appId) = some f ∧ c.appFromToml f.bytes = some R.app
  dirs : (w.get (.buildsDir appId)).isSome
  numbered : Numbered (R.log.map fun x => x.build.id)
  few : R.log.length ≤ 8999
  recorded : ∀ x ∈ R.log, (w.get (.buildDir appId x.build.id)).isSome ∧
    ∃ f, w.get (.build appId x.build.id) = some f ∧ c.buildFromToml f.bytes = some x.build
  only : ∀ id, isPart id = true → (w.get (.build appId id)).isSome → ∃ x ∈ R.log, x.build.id = id
  indexed : ∀ x ∈ R.log, ∀ depot, Holds c (w.get (.index appId x.build.id depot)) (x.index depot)
  branches : ∀ b ∈ R.app.branches, Placed R.log b

end Registry

section Core
variable {c : WorkspaceCodec} {sp : Spelling} {appId : String} {R : Registry} {w v : WorkspaceDisk}
  {mayFail : Op WorkspacePath Unit → WorkspaceDisk → Prop} {u : Unit} {touched : WorkspacePath → Prop}

/-- The files that are read; the others are temporary. -/
def Core : WorkspacePath → Prop
  | .buildsDir _ | .app _ | .buildDir .. | .build .. | .index .. => True
  | _ => False

def SameBut (touched : WorkspacePath → Prop) (w v : WorkspaceDisk) : Prop :=
  ∀ p, Core p → ¬ touched p → v.get p = w.get p

theorem SameBut.rfl' : SameBut touched w w := fun _ _ _ => rfl

theorem SameBut.trans {x : WorkspaceDisk} (first : SameBut touched w v) (second : SameBut touched v x) :
    SameBut touched w x :=
  fun p core clear => (second p core clear).trans (first p core clear)

theorem SameBut.mono {touched' : WorkspacePath → Prop} (same : SameBut touched w v)
    (more : ∀ p, touched p → touched' p) :
    SameBut touched' w v := fun p core clear => same p core fun h => clear (more p h)

/-- Operations on the file may fail. -/
def Trouble (mayFail : Op WorkspacePath Unit → WorkspaceDisk → Prop) (p : WorkspacePath) : Prop :=
  ∃ o u, mayFail o u ∧ o.touches p

/-- The new bytes are in place, or nothing that counts has changed. -/
theorem writeAtomic_wp {tmp path : WorkspacePath} (aside : ¬ Core tmp) (bytes : Bytes) :
    (writeAtomic tmp path bytes).Wp (workspaceSem mayFail) (fun _ => True) (fun r _ v => match r with
      | .ok () => SameBut (· = path) w v ∧ ∃ t, v.get path = some ⟨bytes, t⟩
      | .error _ => SameBut (fun _ => False) w v ∧ Trouble mayFail tmp) u w := by
  have put : ∀ b t, SameBut (fun _ => False) w (w.put tmp b t) := by
    intro b t p core _
    apply get_put_ne
    rintro rfl
    exact aside core
  rw [writeAtomic]
  apply Wp.then
  apply wp_write rfl trivial (fun _ _ => trivial)
  · intro t
    apply wp_good
    apply Wp.then
    apply wp_rename rfl trivial
    · intro f found
      rw [get_put_self] at found
      cases found
      refine ⟨trivial, trivial, fun p core other => ?_, t, FileProg.get_move_self ..⟩
      have apart : p ≠ tmp := fun same => aside (same ▸ core)
      rw [FileProg.get_move_ne other apart, get_put_ne apart]
    · intro gone
      rw [get_put_self] at gone
      cases gone
    · exact fun may => ⟨trivial, put _ _, _, _, may, .inl rfl⟩
  · rintro may v (rfl | ⟨n, t, rfl⟩)
    · exact ⟨trivial, SameBut.rfl', _, _, may, rfl⟩
    · exact ⟨trivial, put _ _, _, _, may, rfl⟩

/-- A directory that is there stays. -/
theorem mkdir_wp {p : WorkspacePath} :
    (op (.mkdir p) : F _).Wp (workspaceSem mayFail) (fun _ => True) (fun r _ v => match r with
      | .ok (.ok ()) => (v.get p).isSome ∧ ∀ q, (q ≠ p ∨ (w.get p).isSome) → v.get q = w.get q
      | .ok (.error _) => v = w ∧ Trouble mayFail p
      | .error _ => False) u w := by
  apply FileProg.Eff.wp_mkdir trivial
  · exact fun there => ⟨there, fun _ _ => rfl⟩
  · intro new t
    refine ⟨trivial, by simp, fun q other => get_put_ne ?_ ..⟩
    rcases other with apart | there
    · exact apart
    · rw [new] at there
      cases there
  · exact fun may => ⟨rfl, _, _, may, rfl⟩

/-- The registry is read off the files that count. -/
theorem Represents.congr (rep : Represents c appId w R) (same : SameBut (fun _ => False) w v) : Represents c appId v R := by
  have get : ∀ p, Core p → v.get p = w.get p := fun p core => same p core id
  constructor
  case named => exact rep.named
  case stored => simpa only [get (.app appId) trivial] using rep.stored
  case dirs => simpa only [get (.buildsDir appId) trivial] using rep.dirs
  case numbered => exact rep.numbered
  case few => exact rep.few
  case recorded =>
      intro x mem
      simpa only [get (.buildDir appId _) trivial, get (.build appId _) trivial] using rep.recorded x mem
  case only =>
      intro id part
      simpa only [get (.build appId _) trivial] using rep.only id part
  case indexed =>
      intro x mem depot
      simpa only [get (.index appId _ _) trivial] using rep.indexed x mem depot
  case branches => exact rep.branches

/-- The record of the app is replaced. -/
theorem Represents.restore {app : App} {f : File} (rep : Represents c appId w R)
    (same : SameBut (· = .app appId) w v) (there : v.get (.app appId) = some f) (holds : c.appFromToml f.bytes = some app)
    (named : app.id = appId) (branches : ∀ b ∈ app.branches, Placed R.log b) :
    Represents c appId v { R with app } := by
  have get : ∀ p, Core p → p ≠ .app appId → v.get p = w.get p := same
  constructor
  case named => exact named
  case stored => exact ⟨f, there, holds⟩
  case dirs => simpa only [get (.buildsDir appId) trivial (by simp)] using rep.dirs
  case numbered => exact rep.numbered
  case few => exact rep.few
  case recorded =>
      intro x mem
      simpa only [get (.buildDir appId _) trivial (by simp), get (.build appId _) trivial (by simp)] using rep.recorded x mem
  case only =>
      intro id part
      simpa only [get (.build appId _) trivial (by simp)] using rep.only id part
  case indexed =>
      intro x mem depot
      simpa only [get (.index appId _ _) trivial (by simp)] using rep.indexed x mem depot
  case branches => exact branches

theorem loadApp_wp {a : String} (rep : Represents c appId w R)
    (leads : sp.app a = appId ∨ w.get (.app (sp.app a)) = none) :
    (loadApp c sp a).Wp (workspaceSem mayFail) (fun _ => True) (fun r _ v => v = w ∧ match r with
      | .ok app => app = R.app ∧ sp.app a = appId
      | .error _ => sp.app a = appId → ∃ o u, mayFail o u) u w := by
  obtain ⟨f, there, holds⟩ := rep.stored
  rw [loadApp]
  apply Wp.then
  apply wp_read trivial
  · intro g found
    rcases leads with here | nowhere
    · rw [here, there] at found
      cases found
      dsimp only [After]
      rw [holds]
      exact ⟨trivial, rfl, rfl, here⟩
    · rw [nowhere] at found
      cases found
  · intro gone
    refine ⟨trivial, rfl, fun here => ?_⟩
    rw [here, there] at gone
    cases gone
  · exact fun may => ⟨trivial, rfl, fun _ => ⟨_, _, may⟩⟩

/-- The new record is stored, or the old one is kept. -/
theorem saveApp_wp (app : App) (rep : Represents c appId w R) (here : sp.app app.id = appId) (named : app.id = appId)
    (branches : ∀ b ∈ app.branches, Placed R.log b) :
    (saveApp c sp app).Wp (workspaceSem mayFail) (fun _ => True) (fun r _ v => match r with
      | .ok () => Represents c appId v { R with app }
      | .error _ => Represents c appId v R ∧ (Trouble mayFail (.buildsDir appId) ∨ Trouble mayFail (.appTmp appId))) u w := by
  rw [saveApp, here]
  refine Wp.seq mkdir_wp ?_ ?_
  · rintro (e | ⟨⟨⟩⟩) _ x - made
    · obtain ⟨rfl, trouble⟩ := made
      exact ⟨trivial, rep, .inl trouble⟩
    · have kept : SameBut (fun _ => False) w x := fun q _ _ => made.2 q (.inr rep.dirs)
      have rep := rep.congr kept
      apply wp_good
      refine Wp.mono (writeAtomic_wp (by simp [Core]) _) (fun _ c => c) ?_
      rintro (e | ⟨⟨⟩⟩) _ y wrote
      · exact ⟨rep.congr wrote.1, .inr wrote.2⟩
      · obtain ⟨same, t, there⟩ := wrote
        exact rep.restore same there (c.appFromToml_appToml app) named branches
  · rintro e _ x bad
    exact bad.elim

end Core

section Builds
variable {c : WorkspaceCodec} {sp : Spelling} {appId : String} {R : Registry} {w v : WorkspaceDisk}
  {mayFail : Op WorkspacePath Unit → WorkspaceDisk → Prop} {u : Unit} {a : String}

def hasRecord (w : WorkspaceDisk) : WorkspacePath → Bool
  | .buildDir app id => (w.get (.build app id)).isSome
  | _ => false

/-- The record that is there is that of the build. -/
theorem readBuild_wp (rep : Represents c appId w R) {id : String} (part : isPart id = true)
    (there : (w.get (.build appId id)).isSome) :
    (readBuild c appId id).Wp (workspaceSem mayFail) (fun _ => True) (fun r _ v => v = w ∧ match r with
      | .ok b => b.id = id ∧ ∃ x ∈ R.log, x.build = b
      | .error _ => ∃ o u, mayFail o u) u w := by
  obtain ⟨x, mem, rfl⟩ := rep.only id part there
  obtain ⟨-, f, found, holds⟩ := rep.recorded x mem
  rw [readBuild]
  apply Wp.then
  apply wp_read trivial
  · intro g same
    rw [found] at same
    cases same
    apply wp_good
    rw [holds]
    exact ⟨trivial, rfl, rfl, x, mem, rfl⟩
  · intro gone
    rw [found] at gone
    cases gone
  · exact fun may => ⟨trivial, rfl, _, _, may⟩

theorem readBuilds_wp (rep : Represents c appId w R) (entries : List WorkspacePath)
    (dirs : ∀ r ∈ entries, ∃ id, r = .buildDir appId id ∧ isPart id = true) :
    (readBuilds c entries).Wp (workspaceSem mayFail) (fun _ => True) (fun r _ v => v = w ∧ match r with
      | .ok found => (found.map fun b => WorkspacePath.buildDir appId b.id) = entries.filter (hasRecord w) ∧
          ∀ b ∈ found, ∃ x ∈ R.log, x.build = b
      | .error _ => ∃ o u, mayFail o u) u w := by
  induction entries with
  | nil => exact ⟨trivial, rfl, rfl, fun b mem => nomatch mem⟩
  | cons r rest ih =>
      obtain ⟨id, rfl, part⟩ := dirs r List.mem_cons_self
      have ih := ih fun r mem => dirs r (List.mem_cons_of_mem _ mem)
      rw [readBuilds]
      apply Wp.then
      apply wp_present trivial
      dsimp only [After]
      cases there : (w.get (.build appId id)).isSome with
      | false =>
          refine Wp.mono ih (fun _ c => c) ?_
          rintro (e | found) _ v ⟨rfl, result⟩
          · exact ⟨rfl, result⟩
          · refine ⟨rfl, ?_, result.2⟩
            rw [result.1, List.filter_cons_of_neg (by simp [hasRecord, there])]
      | true =>
          rw [if_pos rfl]
          refine Wp.seq (readBuild_wp rep part there) ?_ fun e _ v bad => bad
          rintro b _ v - ⟨rfl, rfl, x, mem, same⟩
          refine Wp.seq ih ?_ fun e _ v bad => bad
          rintro found _ v - ⟨rfl, listed, made⟩
          refine ⟨trivial, rfl, ?_, ?_⟩
          · rw [List.map_cons, listed, List.filter_cons_of_pos (by simp [hasRecord, there])]
          · intro b' mem'
            rcases List.mem_cons.mp mem' with rfl | later
            · exact ⟨x, mem, same⟩
            · exact made b' later

/-- Every build is found, in whatever order the directory is listed. -/
theorem found_perm (rep : Represents c appId w R) {entries : List WorkspacePath} {found : List Build}
    (nodup : entries.Nodup) (all : ∀ r, r ∈ entries ↔ (w.get r).isSome ∧ inBuilds appId r = true)
    (listed : (found.map fun b => WorkspacePath.buildDir appId b.id) = entries.filter (hasRecord w))
    (made : ∀ b ∈ found, ∃ x ∈ R.log, x.build = b) : found.Perm (R.log.map Created.build) := by
  have ids : (R.log.map fun x => x.build.id).Nodup := rep.numbered.nodup (by rw [List.length_map]; exact rep.few)
  have logNodup : (R.log.map Created.build).Nodup := by
    refine List.Nodup.of_map Build.id ?_
    rwa [List.map_map]
  have foundNodup : found.Nodup := by
    refine List.Nodup.of_map (fun b => WorkspacePath.buildDir appId b.id) ?_
    rw [listed]
    exact nodup.filter _
  rw [List.perm_ext_iff_of_nodup foundNodup logNodup]
  intro b
  rw [List.mem_map]
  constructor
  · exact made b
  · rintro ⟨x, mem, rfl⟩
    obtain ⟨dir, f, there, -⟩ := rep.recorded x mem
    obtain ⟨i, -, numbered⟩ := rep.numbered.getElem? (List.mem_map_of_mem mem)
    have entry : WorkspacePath.buildDir appId x.build.id ∈ entries.filter (hasRecord w) := by
      rw [List.mem_filter, all]
      refine ⟨⟨dir, ?_⟩, by simp [hasRecord, there]⟩
      simp [inBuilds, numbered, isPart_buildId]
    rw [← listed] at entry
    obtain ⟨b, inFound, same⟩ := List.mem_map.mp entry
    obtain ⟨y, inLog, rfl⟩ := made b inFound
    have equal : y.build.id = x.build.id := (WorkspacePath.buildDir.inj same).2
    have : y = x := List.inj_on_of_nodup_map ids inLog mem equal
    rwa [← this]

theorem builds_wp (rep : Represents c appId w R) (here : sp.app a = appId) :
    (builds c sp a).Wp (workspaceSem mayFail) (fun _ => True) (fun r _ v => v = w ∧ match r with
      | .ok l => l = R.log.map Created.build
      | .error _ => ∃ o u, mayFail o u) u w := by
  rw [builds, here]
  apply Wp.then
  apply wp_present trivial
  dsimp only [After]
  rw [if_pos rep.dirs]
  apply Wp.then
  apply wp_list trivial
  · intro entries all nodup
    apply wp_good
    have dirs : ∀ r ∈ entries, ∃ id, r = .buildDir appId id ∧ isPart id = true := by
      intro r mem
      have listed := ((all r).mp mem).2
      cases r with
      | buildDir app id =>
          simp only [inBuilds, Bool.and_eq_true, decide_eq_true_eq] at listed
          exact ⟨id, by rw [listed.1], listed.2⟩
      | _ => cases listed
    refine Wp.seq (readBuilds_wp rep entries dirs) ?_ fun e _ v bad => bad
    rintro found _ v - ⟨rfl, listed, made⟩
    refine ⟨trivial, rfl, sorted_numbered (found_perm rep nodup all listed made) ?_ ?_⟩
    · rw [List.map_map]
      exact rep.numbered
    · rw [List.length_map]
      exact rep.few
  · exact fun may => ⟨trivial, rfl, _, _, may⟩

theorem build_wp {id : String} :
    (build c sp a id).Wp (workspaceSem mayFail) (fun _ => True) (fun r _ v => v = w ∧
      ∀ b, r = .ok b → (w.get (.build (sp.app a) (sp.build id))).isSome) u w := by
  rw [build]
  apply Wp.then
  apply wp_present trivial
  dsimp only [After]
  apply wp_ite
  · intro there
    rw [readBuild]
    apply Wp.then
    apply wp_read trivial
    · intro f _
      apply wp_good
      cases c.buildFromToml f.bytes with
      | none => exact ⟨trivial, rfl, fun _ _ => there⟩
      | some b => exact ⟨trivial, rfl, fun _ _ => there⟩
    · exact fun _ => ⟨trivial, rfl, fun _ _ => there⟩
    · exact fun _ => ⟨trivial, rfl, fun _ _ => there⟩
  · exact fun _ => ⟨trivial, rfl, fun b bad => nomatch bad⟩

theorem depotIndex_wp {x : Created} (rep : Represents c appId w R) (mem : x ∈ R.log) (here : sp.app a = appId)
    (depot : String) :
    (depotIndex c sp a x.build.id depot).Wp (workspaceSem mayFail) (fun _ => True) (fun r _ v => v = w ∧ match r with
      | .ok index => x.index depot = some index
      | .error _ => x.index depot = none ∨ ∃ o u, mayFail o u) u w := by
  obtain ⟨i, -, numbered⟩ := rep.numbered.getElem? (List.mem_map_of_mem mem)
  have there : sp.build x.build.id = x.build.id := sp.build_part _ (numbered ▸ isPart_buildId _)
  have holds := rep.indexed x mem depot
  rw [depotIndex, here, there]
  apply Wp.then
  apply wp_present trivial
  dsimp only [After]
  cases found : w.get (.index appId x.build.id depot) with
  | none =>
      rw [found] at holds
      refine ⟨trivial, rfl, .inl ?_⟩
      cases given : x.index depot with
      | none => rfl
      | some index =>
          rw [given] at holds
          exact holds.elim
  | some f =>
      rw [Option.isSome_some, if_pos rfl]
      rw [found] at holds
      apply Wp.then
      apply wp_read trivial
      · intro g same
        rw [found] at same
        cases same
        apply wp_good
        cases given : x.index depot with
        | none =>
            rw [given] at holds
            exact holds.elim
        | some index =>
            rw [given] at holds
            rw [show c.indexFromJson f.bytes = some index from holds]
            exact ⟨trivial, rfl, rfl⟩
      · intro gone
        rw [found] at gone
        cases gone
      · exact fun may => ⟨trivial, rfl, .inr ⟨_, _, may⟩⟩

end Builds

end Cavs.Workspace
