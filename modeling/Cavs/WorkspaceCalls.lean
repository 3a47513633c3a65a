import Cavs.WorkspaceSpec

/-!
# The calls of a workspace keep its files true

A creation touches the directory of the next id alone until its record is in place. A call
that keeps clear of a few traps leaves files that stand for the registry after it.
-/
namespace Cavs.Workspace
open FileProg (Bytes File IoError Op)
open FileProg.Eff (Wp forEach op orThrow throw wp_forEach wp_good wp_ite wp_present)

section Create
variable {c : WorkspaceCodec} {sp : Spelling} {appId : String} {R : Registry} {w v : WorkspaceDisk}
  {mayFail : Op WorkspacePath Unit → WorkspaceDisk → Prop} {u : Unit} {branchId id : String}
  {log : List Created}

/-- The index files of one build. -/
def IsIndex (appId id : String) : WorkspacePath → Prop
  | .index app build _ => app = appId ∧ build = id
  | _ => False

/-- After some depots were indexed their indexes are there, and the others as before. -/
def Indexed (c : WorkspaceCodec) (appId id : String) (indexes : List (String × DepotIndex)) (w v : WorkspaceDisk) : Prop :=
  ∀ depot, match indexes.reverse.lookup depot with
    | some index => Holds c (v.get (.index appId id depot)) (some index)
    | none => v.get (.index appId id depot) = w.get (.index appId id depot)

theorem Indexed.cons {depot : String} {index : DepotIndex} {rest : List (String × DepotIndex)}
    {x : WorkspaceDisk} {f : File} (same : SameBut (· = .index appId id depot) w x)
    (there : x.get (.index appId id depot) = some f) (holds : c.indexFromJson f.bytes = some index)
    (indexed : Indexed c appId id rest x v) :
    Indexed c appId id ((depot, index) :: rest) w v := by
  intro other
  have after := indexed other
  rw [List.reverse_cons, List.lookup_append]
  cases found : rest.reverse.lookup other with
  | some index' =>
      rw [found] at after
      exact after
  | none =>
      rw [found] at after
      dsimp only at after
      rw [Option.none_or]
      by_cases this : other = depot
      · subst this
        rw [List.lookup_cons_self, after, there]
        exact holds
      · have apart : (other == depot) = false := beq_eq_false_iff_ne.mpr this
        rw [List.lookup_cons, apart]
        change v.get _ = w.get _
        rw [after]
        exact same _ trivial fun equal => this (WorkspacePath.index.inj equal).2.2

theorem indexDepots_wp (id : String) (sources : List Source) :
    (indexDepots c appId id sources).Wp (workspaceSem mayFail) (fun _ => True) (fun r _ v =>
      SameBut (IsIndex appId id) w v ∧ ∀ depots, r = .ok depots → Indexed c appId id (indexesOf c sources) w v ∧
        ∀ s ∈ sources, ∃ files, s.files = .ok files) u w := by
  induction sources generalizing w u with
  | nil => exact ⟨trivial, SameBut.rfl', fun _ _ => ⟨fun _ => rfl, fun _ mem => by cases mem⟩⟩
  | cons source rest ih =>
      have one : ∀ p, p = .index appId id source.depotId → IsIndex appId id p := by
        rintro p rfl
        exact ⟨rfl, rfl⟩
      rw [indexDepots, indexDepot]
      cases given : source.files with
      | error e => exact ⟨trivial, SameBut.rfl', fun _ bad => by cases bad⟩
      | ok files =>
          refine Wp.seq (R := fun r _ x => (∀ d, r = .ok d → SameBut (· = .index appId id source.depotId) w x ∧ ∃ t,
              x.get (.index appId id source.depotId) = some ⟨c.indexJson (DepotIndex.scan c source.depotId files), t⟩) ∧
            ∀ e, r = .error e → SameBut (fun _ => False) w x) ?_ ?_ ?_
          · apply wp_good
            refine Wp.seq (writeAtomic_wp (by simp [Core]) _) ?_ fun e _ x bad => ⟨fun _ no => (by cases no), fun _ _ => bad.1⟩
            rintro ⟨⟩ _ x - wrote
            exact ⟨trivial, fun _ _ => wrote, fun _ no => by cases no⟩
          · rintro depot _ x - ⟨wrote, -⟩
            obtain ⟨same, t, there⟩ := wrote _ rfl
            refine Wp.seq ih ?_ ?_
            · rintro depots _ y - ⟨later, indexed⟩
              refine ⟨trivial, (same.mono one).trans later, fun _ _ => ?_⟩
              have here : indexesOf c (source :: rest) =
                  (source.depotId, DepotIndex.scan c source.depotId files) :: indexesOf c rest := by
                rw [indexesOf, List.filterMap_cons, given]
                rfl
              rw [here]
              refine ⟨Indexed.cons same there (c.indexFromJson_indexJson _) (indexed depots rfl).1, fun s mem => ?_⟩
              rcases List.mem_cons.mp mem with rfl | inRest
              · exact ⟨files, given⟩
              · exact (indexed depots rfl).2 s inRest
            · rintro e _ y ⟨later, -⟩
              exact ⟨(same.mono one).trans later, fun _ bad => by cases bad⟩
          · rintro e _ x ⟨-, same⟩
            exact ⟨(same _ rfl).mono fun _ bad => bad.elim, fun _ bad => by cases bad⟩

/-- Index files of a build that was not made say nothing. -/
theorem Represents.unlogged (rep : Represents c appId w R) (new : ∀ x ∈ R.log, x.build.id ≠ id)
    (same : SameBut (fun p => IsIndex appId id p ∨ p = .buildDir appId id) w v) : Represents c appId v R := by
  have get : ∀ p, Core p → ¬ IsIndex appId id p → p ≠ .buildDir appId id → v.get p = w.get p :=
    fun p core index dir => same p core (not_or.mpr ⟨index, dir⟩)
  have noIndex : ∀ {p : WorkspacePath}, (∀ a b d, p ≠ .index a b d) → ¬ IsIndex appId id p := by
    intro p other
    cases p with
    | index a b d => exact absurd rfl (other a b d)
    | _ => exact fun bad => bad
  constructor
  case named => exact rep.named
  case stored => simpa only [get (.app appId) trivial (noIndex (by simp)) (by simp)] using rep.stored
  case dirs => simpa only [get (.buildsDir appId) trivial (noIndex (by simp)) (by simp)] using rep.dirs
  case numbered => exact rep.numbered
  case few => exact rep.few
  case recorded =>
      intro x mem
      have apart : WorkspacePath.buildDir appId x.build.id ≠ .buildDir appId id := by simpa using new x mem
      simpa only [get (.buildDir appId _) trivial (noIndex (by simp)) apart,
        get (.build appId _) trivial (noIndex (by simp)) (by simp)] using rep.recorded x mem
  case only =>
      intro other part
      simpa only [get (.build appId _) trivial (noIndex (by simp)) (by simp)] using rep.only other part
  case indexed =>
      intro x mem depot
      have apart : ¬ IsIndex appId id (.index appId x.build.id depot) := fun bad => new x mem bad.2
      simpa only [get (.index appId _ _) trivial apart (by simp)] using rep.indexed x mem depot
  case branches => exact rep.branches

theorem Placed.more {b : Branch} (placed : Placed log b) (x : Created) : Placed (log ++ [x]) b := by
  refine ⟨placed.1, fun id current => ?_⟩
  obtain ⟨y, mem, same⟩ := placed.2 id current
  exact ⟨y, List.mem_append_left _ mem, same⟩

/-- A build was made: its record is there, and its directory holds its indexes alone. -/
theorem Represents.record (made : Created) {f : File} (rep : Represents c appId w R)
    (next : made.build.id = buildId (1001 + R.log.length)) (few : R.log.length < 8999)
    (dir : (w.get (.buildDir appId made.build.id)).isSome)
    (same : SameBut (· = .build appId made.build.id) w v) (there : v.get (.build appId made.build.id) = some f)
    (holds : c.buildFromToml f.bytes = some made.build)
    (indexed : ∀ depot, Holds c (w.get (.index appId made.build.id depot)) (made.index depot)) :
    Represents c appId v { R with log := R.log ++ [made] } := by
  have get : ∀ p, Core p → p ≠ .build appId made.build.id → v.get p = w.get p := same
  have ids : (R.log ++ [made]).map (fun x => x.build.id) = R.log.map (fun x => x.build.id) ++ [buildId (1001 + R.log.length)] := by
    rw [List.map_append, ← next]
    rfl
  constructor
  case named => exact rep.named
  case stored => simpa only [get (.app appId) trivial (by simp)] using rep.stored
  case dirs => simpa only [get (.buildsDir appId) trivial (by simp)] using rep.dirs
  case numbered =>
      have more := rep.numbered.add
      rw [List.length_map] at more
      exact ids ▸ more
  case few =>
      rw [List.length_append]
      exact few
  case recorded =>
      intro x mem
      rw [get (.buildDir appId _) trivial (by simp)]
      rcases List.mem_append.mp mem with old | new
      · obtain ⟨dir, g, found, read⟩ := rep.recorded x old
        refine ⟨dir, g, ?_, read⟩
        have apart : x.build.id ≠ made.build.id := by
          have nodup := (rep.numbered.add.nodup (by
            rw [List.length_append, List.length_map]
            exact few))
          rw [List.length_map, List.nodup_append] at nodup
          intro equal
          exact nodup.2.2 _ (List.mem_map_of_mem old) _ List.mem_cons_self (equal.trans next)
        rw [get (.build appId _) trivial (by simpa using apart), found]
      · cases List.mem_singleton.mp new
        exact ⟨dir, f, there, holds⟩
  case only =>
      intro id part present
      by_cases this : id = made.build.id
      · exact ⟨made, List.mem_append_right _ List.mem_cons_self, this.symm⟩
      · rw [get (.build appId id) trivial (by simpa using this)] at present
        obtain ⟨x, mem, equal⟩ := rep.only id part present
        exact ⟨x, List.mem_append_left _ mem, equal⟩
  case indexed =>
      intro x mem depot
      rw [get (.index appId _ _) trivial (by simp)]
      rcases List.mem_append.mp mem with old | new
      · exact rep.indexed x old depot
      · cases List.mem_singleton.mp new
        exact indexed depot
  case branches => exact fun b mem => (rep.branches b mem).more made

/-- The branch that is pointed at a build is at the end of its history. -/
theorem pointBranch_placed {l l' : List Branch} (pointed : pointBranch branchId id l = some l')
    (made : ∃ x ∈ log, x.build.id = id) (placed : ∀ b ∈ l, Placed log b) :
    ∀ b ∈ l', Placed log b := by
  induction l generalizing l' with
  | nil => cases pointed
  | cons b rest ih =>
      rw [pointBranch] at pointed
      split at pointed
      · cases pointed
        intro b' mem
        rcases List.mem_cons.mp mem with rfl | later
        · refine ⟨?_, fun id' same => ?_⟩
          · rw [List.getLast?_concat]
          · cases same
            exact made
        · exact placed b' (List.mem_cons_of_mem _ later)
      · obtain ⟨rest', inside, rfl⟩ := Option.map_eq_some_iff.mp pointed
        intro b' mem
        rcases List.mem_cons.mp mem with rfl | later
        · exact placed b' List.mem_cons_self
        · exact ih inside (fun b mem => placed b (List.mem_cons_of_mem _ mem)) b' later

theorem pointBranch_known {l : List Branch} (known : ∃ b ∈ l, b.id = branchId) :
    ∃ l', pointBranch branchId id l = some l' := by
  induction l with
  | nil =>
      obtain ⟨b, mem, -⟩ := known
      cases mem
  | cons b rest ih =>
      rw [pointBranch]
      split
      · exact ⟨_, rfl⟩
      · rename_i other
        obtain ⟨b', mem, same⟩ := known
        rcases List.mem_cons.mp mem with rfl | later
        · exact absurd same other
        · obtain ⟨l', inside⟩ := ih ⟨b', later, same⟩
          exact ⟨b :: l', by rw [inside]; rfl⟩

/-- Pointing a branch of the app. -/
theorem point_wp {P : Except WorkspaceError App → Unit → WorkspaceDisk → Prop} (app : App)
    (good : ∀ branches, pointBranch branchId id app.branches = some branches → P (.ok (app.pointing branchId id)) u w)
    (bad : pointBranch branchId id app.branches = none → ∀ e, P (.error e) u w) :
    (app.point branchId id).Wp (workspaceSem mayFail) (fun _ => True) P u w := by
  unfold App.point
  unfold App.pointing at good
  cases pointed : pointBranch branchId id app.branches with
  | none => exact ⟨trivial, bad pointed _⟩
  | some branches =>
      have := good branches pointed
      rw [pointed] at this
      exact ⟨trivial, this⟩

theorem pointing_id (app : App) (branchId id : String) : (app.pointing branchId id).id = app.id := by
  unfold App.pointing
  split
  · rfl
  · rfl

theorem lookup_indexesOf {sources : List Source} {depot : String} (all : ∀ s ∈ sources, ∃ files, s.files = .ok files)
    (mem : depot ∈ sources.map Source.depotId) : ((indexesOf c sources).reverse.lookup depot).isSome := by
  obtain ⟨s, there, rfl⟩ := List.mem_map.mp mem
  obtain ⟨files, given⟩ := all s there
  rw [List.lookup_isSome_iff]
  refine ⟨(s.depotId, DepotIndex.scan c s.depotId files), ?_, by simp⟩
  rw [List.mem_reverse, indexesOf, List.mem_filterMap]
  exact ⟨s, there, by rw [given]; rfl⟩

theorem pointing_placed {app : App} (made : ∃ x ∈ log, x.build.id = id)
    (placed : ∀ b ∈ app.branches, Placed log b) : ∀ b ∈ (app.pointing branchId id).branches, Placed log b := by
  unfold App.pointing
  split
  · exact pointBranch_placed ‹_› made placed
  · exact placed

end Create

section Calls
variable {c : WorkspaceCodec} {sp : Spelling} {appId : String} {R : Registry} {w v : WorkspaceDisk}
  {mayFail : Op WorkspacePath Unit → WorkspaceDisk → Prop} {u : Unit} {a : String}

/-- A loop that only looks up depots leaves the files alone. -/
theorem depots_wp (app : App) (sources : List Source) :
    (forEach sources fun s => do let _ ← app.depot s.depotId : F Unit).Wp (workspaceSem mayFail) (fun _ => True)
      (fun _ _ v => v = w) u w := by
  refine wp_forEach (I := fun _ v => v = w) _ (fun _ _ same _ => same) sources ?_ u w rfl trivial
  rintro s - _ v rfl
  unfold App.depot
  cases app.depots.find? fun d => d.id = s.depotId with
  | none => exact ⟨trivial, rfl⟩
  | some depot => exact ⟨trivial, rfl⟩

/-- The record of the app can be stored without failure. -/
def Savable (mayFail : Op WorkspacePath Unit → WorkspaceDisk → Prop) (appId : String) : Prop :=
  ¬ Trouble mayFail (.buildsDir appId) ∧ ¬ Trouble mayFail (.appTmp appId)

theorem createBuild_wp {label branch : Option String} {sources : List Source} {createdAt : UInt64}
    (part : isPart appId = true) (rep : Represents c appId w R)
    (leads : sp.app a = appId ∨ w.get (.app (sp.app a)) = none) (few : R.log.length < 8999)
    (known : ∀ branchId, branch = some branchId → (∃ b ∈ R.app.branches, b.id = branchId) ∧ Savable mayFail appId)
    (clear : ∀ depot, (w.get (.index appId (buildId (1001 + R.log.length)) depot)).isSome →
      depot ∈ sources.map Source.depotId) :
    (createBuild c sp a label branch sources createdAt).Wp (workspaceSem mayFail) (fun _ => True) (fun r _ v => match r with
      | .ok build => Represents c appId v (effect c (some build) R (.createBuild a label branch sources createdAt))
      | .error _ => Represents c appId v R) u w := by
  rw [createBuild]
  refine Wp.seq (loadApp_wp rep leads) ?_ ?_
  · rintro app _ x - ⟨rfl, rfl, here⟩
    apply wp_ite
    · exact fun _ => ⟨trivial, rep⟩
    intro _
    refine Wp.seq (depots_wp R.app sources) ?_ ?_
    · rintro ⟨⟩ _ x - rfl
      refine Wp.seq (builds_wp rep here) ?_ ?_
      · rintro l _ x - ⟨rfl, rfl⟩
        have next : nextBuildId (R.log.map Created.build) = buildId (1001 + R.log.length) := by
          rw [nextBuildId_numbered, List.length_map]
          · rw [List.map_map]
            exact rep.numbered
          · rw [List.length_map]
            exact rep.few
        rw [next, here]
        generalize fresh : buildId (1001 + R.log.length) = id at clear
        have new : ∀ x ∈ R.log, x.build.id ≠ id := by
          rintro x mem rfl
          have nodup := rep.numbered.add.nodup (by
            rw [List.length_append, List.length_map]
            exact few)
          rw [List.length_map, fresh, List.nodup_append] at nodup
          exact nodup.2.2 _ (List.mem_map_of_mem mem) _ List.mem_cons_self rfl
        dsimp only
        refine Wp.seq mkdir_wp ?_ fun e _ y bad => bad.elim
        rintro (e | ⟨⟨⟩⟩) _ y - made
        · obtain ⟨rfl, -⟩ := made
          exact ⟨trivial, rep⟩
        apply wp_good
        obtain ⟨dir, others⟩ := made
        have apart : SameBut (· = .buildDir appId id) x y := fun p _ other => others p (.inl other)
        refine Wp.seq (indexDepots_wp id sources) ?_ ?_
        · rintro depots _ z - ⟨same, indexed⟩
          obtain ⟨indexed, readable⟩ := indexed depots rfl
          have repZ : Represents c appId z R := by
            refine rep.unlogged new ((apart.mono fun _ h => .inr h).trans (same.mono fun _ h => .inl h))
          have dirZ : (z.get (.buildDir appId id)).isSome := by
            rw [same (.buildDir appId id) trivial fun bad => bad]
            exact dir
          have indexedZ : ∀ depot, Holds c (z.get (.index appId id depot)) ((indexesOf c sources).reverse.lookup depot) := by
            intro depot
            have after := indexed depot
            cases given : (indexesOf c sources).reverse.lookup depot with
            | some index =>
                rw [given] at after
                exact after
            | none =>
                rw [given] at after
                have absent : x.get (.index appId id depot) = none := by
                  cases there : x.get (.index appId id depot) with
                  | none => rfl
                  | some f =>
                      have mem := clear depot (by rw [there]; rfl)
                      have found := @lookup_indexesOf c sources depot readable mem
                      rw [given] at found
                      cases found
                rw [after, others _ (.inl (by simp)), absent]
                trivial
          cases spelled : c.buildToml ⟨id, label, createdAt, depots⟩ with
          | none => exact ⟨trivial, repZ⟩
          | some raw =>
              refine Wp.seq (writeAtomic_wp (by simp [Core]) raw) ?_ ?_
              · rintro ⟨⟩ _ q - ⟨wrote, t, there⟩
                have repQ := repZ.record ⟨⟨id, label, createdAt, depots⟩, indexesOf c sources⟩ fresh.symm few dirZ
                  wrote there (c.buildFromToml_buildToml _ raw spelled) indexedZ
                cases branch with
                | none => exact ⟨trivial, repQ⟩
                | some branchId =>
                    obtain ⟨known, savable⟩ := known branchId rfl
                    obtain ⟨branches, pointed⟩ := @pointBranch_known branchId id _ known
                    have made : ∃ x ∈ R.log ++ [⟨⟨id, label, createdAt, depots⟩, indexesOf c sources⟩], x.build.id = id :=
                      ⟨_, List.mem_append_right _ List.mem_cons_self, rfl⟩
                    have named : (R.app.pointing branchId id).id = appId := (pointing_id ..).trans rep.named
                    apply Wp.then
                    apply point_wp
                    · intro _ _
                      refine Wp.seq (saveApp_wp _ repQ (by rw [named, sp.app_part _ part]) named
                        (pointing_placed made repQ.branches)) ?_ ?_
                      · rintro ⟨⟩ _ q' - stored
                        exact ⟨trivial, stored⟩
                      · rintro e _ q' ⟨-, trouble⟩
                        exact (trouble.elim savable.1 savable.2).elim
                    · intro unknown
                      rw [pointed] at unknown
                      cases unknown
              · rintro e _ q ⟨kept, -⟩
                exact repZ.congr kept
        · rintro e _ z ⟨same, -⟩
          exact rep.unlogged new ((apart.mono fun _ h => .inr h).trans (same.mono fun _ h => .inl h))
      · rintro e _ x ⟨rfl, -⟩
        exact rep
    · rintro e _ x rfl
      exact rep
  · rintro e _ x ⟨rfl, -⟩
    exact rep

theorem addDepot_wp {depot : Depot} (part : isPart appId = true) (rep : Represents c appId w R)
    (leads : sp.app a = appId ∨ w.get (.app (sp.app a)) = none) :
    (addDepot c sp a depot).Wp (workspaceSem mayFail) (fun _ => True) (fun r _ v => match r with
      | .ok () => Represents c appId v (effect c none R (.addDepot a depot))
      | .error _ => Represents c appId v R) u w := by
  rw [addDepot, validateId]
  refine Wp.seq (R := fun _ _ v => v = w) ?_ ?_ ?_
  · exact wp_ite (fun _ => ⟨trivial, rfl⟩) fun _ => ⟨trivial, rfl⟩
  · rintro ⟨⟩ _ x - rfl
    refine Wp.seq (loadApp_wp rep leads) ?_ ?_
    · rintro app _ x - ⟨rfl, rfl, -⟩
      apply wp_ite
      · exact fun _ => ⟨trivial, rep⟩
      · intro _
        refine Wp.mono (saveApp_wp { R.app with depots := R.app.depots ++ [depot] } rep ?_ rep.named rep.branches)
          (fun _ c => c) ?_
        · rw [← rep.named, sp.app_part]
          exact rep.named ▸ part
        · rintro (e | ⟨⟨⟩⟩) _ y stored
          · exact stored.1
          · exact stored
    · rintro e _ x ⟨rfl, -⟩
      exact rep
  · rintro e _ x rfl
    exact rep

theorem addBranch_wp {branch : Branch} (part : isPart appId = true) (rep : Represents c appId w R)
    (leads : sp.app a = appId ∨ w.get (.app (sp.app a)) = none) (placed : Placed R.log branch) :
    (addBranch c sp a branch).Wp (workspaceSem mayFail) (fun _ => True) (fun r _ v => match r with
      | .ok () => Represents c appId v (effect c none R (.addBranch a branch))
      | .error _ => Represents c appId v R) u w := by
  rw [addBranch, validateId]
  refine Wp.seq (R := fun _ _ v => v = w) ?_ ?_ ?_
  · exact wp_ite (fun _ => ⟨trivial, rfl⟩) fun _ => ⟨trivial, rfl⟩
  · rintro ⟨⟩ _ x - rfl
    refine Wp.seq (loadApp_wp rep leads) ?_ ?_
    · rintro app _ x - ⟨rfl, rfl, -⟩
      apply wp_ite
      · exact fun _ => ⟨trivial, rep⟩
      · intro _
        have placed : ∀ b ∈ R.app.branches ++ [branch], Placed R.log b := by
          intro b mem
          rcases List.mem_append.mp mem with old | new
          · exact rep.branches b old
          · cases List.mem_singleton.mp new
            exact placed
        refine Wp.mono (saveApp_wp { R.app with branches := R.app.branches ++ [branch] } rep ?_ rep.named placed)
          (fun _ c => c) ?_
        · rw [← rep.named, sp.app_part]
          exact rep.named ▸ part
        · rintro (e | ⟨⟨⟩⟩) _ y stored
          · exact stored.1
          · exact stored
    · rintro e _ x ⟨rfl, -⟩
      exact rep
  · rintro e _ x rfl
    exact rep

/-- A branch moves to a build that is there under the id that was given. -/
theorem promote_wp {branchId id : String} (part : isPart appId = true) (rep : Represents c appId w R)
    (leads : sp.app a = appId ∨ w.get (.app (sp.app a)) = none)
    (spelled : isPart id = true ∨ w.get (.build appId (sp.build id)) = none) :
    (promote c sp a branchId id).Wp (workspaceSem mayFail) (fun _ => True) (fun r _ v => match r with
      | .ok () => Represents c appId v { R with app := R.app.pointing branchId id }
      | .error _ => Represents c appId v R) u w := by
  rw [promote]
  refine Wp.seq build_wp ?_ ?_
  · rintro b _ x - ⟨rfl, there⟩
    have there := there b rfl
    refine Wp.seq (loadApp_wp rep leads) ?_ ?_
    · rintro app _ x - ⟨rfl, rfl, here⟩
      rw [here] at there
      have made : ∃ y ∈ R.log, y.build.id = id := by
        rcases spelled with plain | nowhere
        · rw [sp.build_part _ plain] at there
          exact rep.only id plain there
        · rw [nowhere] at there
          cases there
      have named : (R.app.pointing branchId id).id = appId := (pointing_id ..).trans rep.named
      apply Wp.then
      apply point_wp
      · intro _ _
        refine Wp.mono (saveApp_wp _ rep (by rw [named, sp.app_part _ part]) named (pointing_placed made rep.branches))
          (fun _ c => c) ?_
        rintro (e | ⟨⟨⟩⟩) _ y stored
        · exact stored.1
        · exact stored
      · exact fun _ e => ⟨trivial, rep⟩
    · rintro e _ x ⟨rfl, -⟩
      exact rep
  · rintro e _ x ⟨rfl, -⟩
    exact rep

theorem rollback_wp {branchId id : String} (part : isPart appId = true) (rep : Represents c appId w R)
    (leads : sp.app a = appId ∨ w.get (.app (sp.app a)) = none)
    (spelled : isPart id = true ∨ w.get (.build appId (sp.build id)) = none) :
    (rollback c sp a branchId id).Wp (workspaceSem mayFail) (fun _ => True) (fun r _ v => match r with
      | .ok () => Represents c appId v { R with app := R.app.pointing branchId id }
      | .error _ => Represents c appId v R) u w := by
  rw [rollback]
  refine Wp.seq (loadApp_wp rep leads) ?_ ?_
  · rintro app _ x - ⟨rfl, rfl, -⟩
    cases R.app.branches.find? fun b => b.id = branchId with
    | none => exact ⟨trivial, rep⟩
    | some b => exact wp_ite (fun _ => promote_wp part rep leads spelled) fun _ => ⟨trivial, rep⟩
  · rintro e _ x ⟨rfl, -⟩
    exact rep

/-- A new workspace has no builds, if no record of one lies in its place. -/
theorem init_wp (fresh : ∀ id, isPart id = true → w.get (.build appId id) = none) :
    (init c sp appId).Wp (workspaceSem mayFail) (fun _ => True) (fun r _ v => r = .ok () →
      isPart appId = true ∧ Represents c appId v ⟨⟨appId, appId, [], []⟩, []⟩) u w := by
  rw [init]
  apply Wp.then
  apply wp_present trivial
  dsimp only [FileProg.Eff.After]
  apply wp_ite
  · exact fun _ => ⟨trivial, fun bad => by cases bad⟩
  intro _
  rw [validateId]
  refine Wp.seq (R := fun r _ v => v = w ∧ (r = .ok () → validId appId = true)) ?_ ?_ fun e _ x _ bad => by cases bad
  · exact wp_ite (fun valid => ⟨trivial, rfl, fun _ => valid⟩) fun _ => ⟨trivial, rfl, fun bad => by cases bad⟩
  rintro ⟨⟩ _ x - ⟨rfl, valid⟩
  have part := validId_isPart (valid rfl)
  have here := sp.app_part _ part
  refine Wp.seq mkdir_wp ?_ fun e _ y bad => bad.elim
  rintro (e | ⟨⟨⟩⟩) _ y - made
  · exact ⟨trivial, fun bad => by cases bad⟩
  obtain ⟨dirs, others⟩ := made
  apply wp_good
  refine Wp.seq mkdir_wp ?_ fun e _ z bad => bad.elim
  rintro (e | ⟨⟨⟩⟩) _ z - made
  · exact ⟨trivial, fun bad => by cases bad⟩
  have kept : ∀ q, q ≠ .reportsDir appId → z.get q = y.get q := fun q apart => made.2 q (.inl apart)
  apply wp_good
  refine Wp.seq (writeAtomic_wp (by simp [Core]) _) ?_ fun e _ q _ bad => by cases bad
  rintro ⟨⟩ _ q - ⟨config, -⟩
  rw [saveApp, here]
  refine Wp.seq mkdir_wp ?_ fun e _ t bad => bad.elim
  rintro (e | ⟨⟨⟩⟩) _ q' - made
  · exact ⟨trivial, fun bad => by cases bad⟩
  apply wp_good
  refine Wp.mono (writeAtomic_wp (by simp [Core]) _) (fun _ c => c) ?_
  rintro (e | ⟨⟨⟩⟩) _ v wrote
  · exact fun bad => by cases bad
  obtain ⟨same, t, there⟩ := wrote
  refine fun _ => ⟨part, ?_⟩
  constructor
  case named => rfl
  case stored => exact ⟨_, there, c.appFromToml_appToml _⟩
  case dirs =>
      rw [same (.buildsDir appId) trivial (by simp)]
      exact made.1
  case numbered => exact Numbered.nil
  case few => exact Nat.zero_le _
  case recorded => exact fun x mem => by cases mem
  case only =>
      intro id plain there
      rw [same (.build appId id) trivial (by simp), made.2 _ (.inl (by simp)), config (.build appId id) trivial (by simp),
        kept _ (by simp), others _ (.inl (by simp)), fresh id plain] at there
      cases there
  case indexed => exact fun x mem => by cases mem
  case branches => exact fun b mem => by cases mem

end Calls

end Cavs.Workspace
