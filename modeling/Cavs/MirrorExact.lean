import Cavs.MetaFresh
import Cavs.Mirror

/-!
# When the mirror is one

The remote keeps the first bytes it was given for a path. So after a push it shows the local
tree just when the push left the bytes of every file alone that the remote already had.
-/
namespace Cavs.Mirror
open FileProg (Bytes)
open Std (ExtTreeMap)

section Resolve
variable {c : MetaCodec} {t t' : MetaTree}

/-- A resolver asks for files. -/
theorem resolve_congr (same : ∀ f, t.file f = t'.file f) (call : ResolveCall) (s : MetaState) :
    resolve c t call s = resolve c t' call s := by
  have answers : getAllOpt t = getAllOpt t' := by
    funext call f
    rw [getAllOpt, getAllOpt, same]
  have all : getAll t = getAll t' := by
    funext call f
    rw [getAll, getAll, answers]
  have single : resolveSingle c t = resolveSingle c t' := by
    funext call s
    rw [resolveSingle, resolveSingle, readSingle, readSingle, all]
  have pack : resolvePack c t = resolvePack c t' := by
    funext call id s
    rw [resolvePack, resolvePack, fetchMetaPack, fetchMetaPack, readMetaPack, readMetaPack, all, single]
  have mapped : resolveMapped c t = resolveMapped c t' := by
    funext call id s
    rw [resolveMapped, resolveMapped, pack]
  have index : ensureIndex c t = ensureIndex c t' := by
    funext call s
    rw [ensureIndex, ensureIndex, answers]
  rw [resolve, resolve, index, mapped, single]

def relOf : TreeFile → String
  | .index => metaIndexRel
  | .pack id => metaRel id
  | .manifest oid => manifestRel oid
  | .chunkMap oid => chunkMapRel oid

theorem metaIdOf_eq_some {rel id : String} : metaIdOf rel = some id ↔ rel = metaRel id := by
  rw [metaIdOf, Option.map_eq_some_iff]
  constructor
  · rintro ⟨l, found, rfl⟩
    obtain ⟨rest, front, back⟩ := Option.bind_eq_some_iff.mp found
    rw [List.isPrefixOf?_eq_some_iff_append_eq] at front
    rw [List.isSuffixOf?_eq_some_iff_append_eq] at back
    rw [metaRel, String.toList_ofList, back, front, String.ofList_toList]
  · rintro rfl
    refine ⟨id.toList, ?_, String.ofList_toList⟩
    rw [metaRel, String.toList_ofList, List.isPrefixOf?_eq_some_iff_append_eq.mpr rfl, Option.bind_some,
      List.isSuffixOf?_eq_some_iff_append_eq.mpr rfl]

theorem mem_metaIds {files : Files} {id : String} : id ∈ metaIds files ↔ metaRel id ∈ files := by
  rw [metaIds, List.mem_filterMap]
  constructor
  · rintro ⟨rel, mem, found⟩
    rw [← metaIdOf_eq_some.mp found]
    exact ExtTreeMap.mem_keys.mp mem
  · exact fun mem => ⟨metaRel id, ExtTreeMap.mem_keys.mpr mem, metaIdOf_eq_some.mpr rfl⟩

theorem lookup_filterMap (l : List String) (g : String → Option Bytes) (id : String) :
    (l.filterMap fun i => (g i).map fun b => (i, b)).lookup id = if id ∈ l then g id else none := by
  induction l with
  | nil => rfl
  | cons i l ih =>
      by_cases same : id = i
      · subst same
        rw [if_pos List.mem_cons_self]
        cases found : g id with
        | none =>
            rw [List.filterMap_cons_none (by rw [found]; rfl), ih, found]
            split <;> rfl
        | some b => rw [List.filterMap_cons_some (by rw [found]; rfl), List.lookup_cons_self]
      · have rest : (id ∈ i :: l) ↔ id ∈ l := by rw [List.mem_cons]; exact or_iff_right same
        cases found : g i with
        | none => rw [List.filterMap_cons_none (by rw [found]; rfl), ih, if_congr rest rfl rfl]
        | some b =>
            rw [List.filterMap_cons_some (by rw [found]; rfl), List.lookup_cons, beq_eq_false_iff_ne.mpr same]
            simp only [ih, if_congr rest rfl rfl]

/-- What a resolver asks of a tree is in one file each. -/
theorem metaTree_file {arrange : List String → List String} (perm : ∀ l, (arrange l).Perm l) (files : Files) (f : TreeFile) :
    (metaTree arrange files).file f = files[relOf f]? := by
  cases f with
  | index | manifest oid | chunkMap oid => rfl
  | pack id =>
      change List.lookup id ((arrange (metaIds files)).filterMap _) = _
      rw [lookup_filterMap, if_congr ((perm _).mem_iff.trans mem_metaIds) rfl rfl]
      split
      · rfl
      · rename_i absent
        rw [ExtTreeMap.mem_iff_isSome_getElem?, Option.not_isSome_iff_eq_none] at absent
        exact absent.symm

theorem relOf_published (f : TreeFile) : isPrivate (relOf f) = false := by
  have published : ∀ (ch : Char) (rest : List Char), ch ≠ '.' → isPrivate (String.ofList (ch :: rest)) = false := by
    intro ch rest other
    have lock : String.ofList (ch :: rest) ≠ lockRel := by
      rw [ne_eq, ← String.toList_inj, String.toList_ofList]
      exact fun same => other (List.cons.inj same).1
    rw [isPrivate, Bool.or_eq_false_iff, beq_eq_false_iff_ne]
    refine ⟨lock, ?_⟩
    rw [String.toList_ofList]
    simp only [storeFront, List.isPrefixOf, Bool.and_eq_false_iff, beq_eq_false_iff_ne]
    exact .inl (Ne.symm other)
  have named : ∀ (s : String) (ch : Char) (rest : List Char), s.toList = ch :: rest → ch ≠ '.' → isPrivate s = false := by
    intro s ch rest spelled other
    rw [← String.ofList_toList (s := s), spelled]
    exact published ch rest other
  cases f with
  | index => exact named _ 'm' _ rfl (by decide)
  | pack id => exact published 'm' _ (by decide)
  | manifest oid => exact named _ 'a' _ (by rw [relOf, manifestRel, String.toList_append, String.toList_append]; rfl) (by decide)
  | chunkMap oid => exact named _ 'a' _ (by rw [relOf, chunkMapRel, String.toList_append, String.toList_append]; rfl) (by decide)

end Resolve

section Sync
variable {net : Net} {tree : Files}

/-- A sync keeps what the remote has and adds files of the tree. -/
structure Synced (tree : Files) (remote remote' : Files) : Prop where
  kept : ∀ (rel : String) (b : Bytes), remote[rel]? = some b → remote'[rel]? = some b
  added : ∀ (rel : String) (b : Bytes), remote'[rel]? = some b → remote[rel]? = some b ∨ (isPrivate rel = false ∧ tree[rel]? = some b)

theorem Synced.refl (tree remote : Files) : Synced tree remote remote := ⟨fun _ _ h => h, fun _ _ h => .inl h⟩

theorem Synced.trans {r r' r'' : Files} (first : Synced tree r r') (then_ : Synced tree r' r'') : Synced tree r r'' where
  kept rel b there := then_.kept rel b (first.kept rel b there)
  added rel b there := by
    rcases then_.added rel b there with old | new
    · exact first.added rel b old
    · exact .inr new

theorem synced_insert {remote : Files} {rel : String} {bytes : Bytes} (published : isPrivate rel = false)
    (absent : rel ∉ remote) (there : tree[rel]? = some bytes) : Synced tree remote (remote.insert rel bytes) where
  kept q b held := by
    have other : rel ≠ q := by
      rintro rfl
      rw [ExtTreeMap.mem_iff_isSome_getElem?, held] at absent
      exact absent rfl
    rw [ExtTreeMap.getElem?_insert, if_neg (by rwa [Std.compare_eq_iff_eq])]
    exact held
  added q b held := by
    rw [ExtTreeMap.getElem?_insert] at held
    split at held
    · rename_i same
      rw [Std.compare_eq_iff_eq] at same
      subst same
      exact .inr ⟨published, there.trans held⟩
    · exact .inl held

theorem syncFiles_synced (l : List String) (put skipped : Nat) (remote : Files) :
    Synced tree remote (syncFiles net tree l put skipped remote).2 := by
  induction l generalizing put skipped remote with
  | nil => exact .refl tree remote
  | cons rel rest ih =>
      unfold syncFiles
      split
      · exact ih put skipped remote
      · rename_i published
        rw [Bool.not_eq_true] at published
        split
        · exact .refl tree remote
        · split
          · exact ih put (skipped + 1) remote
          · rename_i absent
            cases there : tree[rel]? with
            | none => exact .refl tree remote
            | some bytes =>
                dsimp only
                split
                · exact (synced_insert published absent there).trans (ih (put + 1) skipped _)
                · dsimp only
                  split
                  · exact synced_insert published absent there
                  · exact .refl tree remote

/-- A sync that ends well leaves no published file out. -/
theorem syncFiles_complete {l : List String} {put skipped : Nat} {remote : Files} {n : Nat × Nat}
    (done : (syncFiles net tree l put skipped remote).1 = .ok n) {rel : String} (mem : rel ∈ l)
    (published : isPrivate rel = false) : rel ∈ (syncFiles net tree l put skipped remote).2 := by
  have stays : ∀ {r r' : Files}, Synced tree r r' → rel ∈ r → rel ∈ r' := by
    intro r r' synced there
    rw [ExtTreeMap.mem_iff_isSome_getElem?, Option.isSome_iff_exists] at there ⊢
    obtain ⟨b, held⟩ := there
    exact ⟨b, synced.kept rel b held⟩
  induction l generalizing put skipped remote with
  | nil => cases mem
  | cons first rest ih =>
      unfold syncFiles at done ⊢
      split
      · rename_i hidden
        rw [if_pos hidden] at done
        rcases List.mem_cons.mp mem with rfl | more
        · rw [published] at hidden
          cases hidden
        · exact ih done more
      · rename_i shown
        rw [if_neg shown] at done
        split
        · rename_i lost
          rw [if_pos lost] at done
          cases done
        · rename_i answered
          rw [if_neg answered] at done
          split
          · rename_i present
            rw [if_pos present] at done
            rcases List.mem_cons.mp mem with rfl | more
            · exact stays (syncFiles_synced rest put (skipped + 1) remote) present
            · exact ih done more
          · rename_i absent
            rw [if_neg absent] at done
            cases there : tree[first]? with
            | none =>
                rw [there] at done
                cases done
            | some bytes =>
                rw [there] at done
                dsimp only at done ⊢
                split
                · rename_i stored
                  rw [if_pos stored] at done
                  rcases List.mem_cons.mp mem with rfl | more
                  · exact stays (syncFiles_synced rest (put + 1) skipped _) ExtTreeMap.mem_insert_self
                  · exact ih done more
                · rename_i failed
                  rw [if_neg failed] at done
                  cases done

end Sync

section Export
variable {c : MetaCodec} {α β : Type}

/-- A program that takes no file away. -/
def Grows (m : ExportM α) : Prop := ∀ files rel, rel ∈ files → rel ∈ (m.run.run files).2

theorem Grows.pure (a : α) : Grows (pure a : ExportM α) := fun _ _ mem => mem

theorem Grows.throw (e : StoreError) : Grows (throw e : ExportM α) := fun _ _ mem => mem

theorem Grows.bind {m : ExportM α} {f : α → ExportM β} (first : Grows m) (rest : ∀ a, Grows (f a)) : Grows (m >>= f) := by
  intro files rel mem
  have there := first files rel mem
  rw [ExceptT.run_bind, StateT.run_bind]
  cases ran : m.run.run files with
  | mk r files' =>
      rw [ran] at there
      cases r with
      | error e => exact there
      | ok a => exact rest a files' rel there

theorem grows_get : Grows (get : ExportM Files) := fun _ _ mem => mem

theorem grows_of (r : Except StoreError α) : Grows (ExceptT.mk (pure r) : ExportM α) := fun _ _ mem => mem

theorem grows_writeFile (rel : String) (b : Bytes) : Grows (writeFile rel b) := fun _ _ mem =>
  ExtTreeMap.mem_insert.mpr (.inr mem)

theorem grows_writeSome (rel : String) (b : Option Bytes) : Grows (writeSome rel b) := by
  cases b with
  | none => exact .pure _
  | some b => exact grows_writeFile rel b

theorem grows_copyIfDifferent (rel : String) (b : Bytes) : Grows (copyIfDifferent rel b) := by
  refine grows_get.bind fun files => ?_
  split
  · split
    · exact .pure _
    · exact grows_writeFile rel b
  · exact grows_writeFile rel b

theorem grows_copyPacks (packs : List PackFiles) : Grows (copyPacks packs) := by
  induction packs with
  | nil => exact .pure _
  | cons p rest ih => exact (grows_copyIfDifferent _ _).bind fun _ => (grows_copyIfDifferent _ _).bind fun _ => ih

theorem grows_exportAssets (view : PushView) (names : List String) : Grows (exportAssets view names) := by
  induction names with
  | nil => exact .pure _
  | cons name rest ih =>
      refine Grows.bind ?_ fun _ => ih
      exact (grows_of _).bind fun a => (grows_copyPacks _).bind fun _ => (grows_of _).bind fun _ =>
        (grows_writeFile _ _).bind fun _ => (grows_of _).bind fun _ => (grows_writeFile _ _).bind fun _ =>
          (grows_of _).bind fun _ => grows_writeFile _ _

theorem grows_exportMeta (view : PushView) (arrange : List String → List String) (names : List String) :
    Grows (exportMeta view c arrange names) := by
  refine grows_get.bind fun files => ?_
  split
  · exact .throw _
  · exact .pure _
  · exact (grows_writeSome _ _).bind fun _ => grows_writeSome _ _

/-- A push only adds to the local tree. -/
theorem mem_exported {p : Push} {tree : Files} {rel : String} (mem : rel ∈ tree) : rel ∈ (exported c p tree).2 := by
  have hidden : ∀ (l : List (String × Bytes)) (files : Files), rel ∈ files → rel ∈ writeHidden l files := by
    intro l
    induction l with
    | nil => exact fun _ there => there
    | cons x l ih => exact fun files there => ih _ (ExtTreeMap.mem_insert.mpr (.inr there))
  exact ((grows_exportAssets _ _).bind fun _ => grows_exportMeta _ _ _) _ _ (hidden _ _ mem)

end Export

section Runs
variable (c : MetaCodec)

/-- The states after pushes that went well or failed at any point, from two empty trees. -/
inductive Pushed : State → Prop
  | start : Pushed ⟨∅, ∅⟩
  | push {s} (before : Pushed s) (p : Push) : Pushed (push c p s).2

/-- Every published file is on the remote as it is here. -/
def Mirrors (s : State) : Prop :=
  ∀ (rel : String) (b : Bytes), isPrivate rel = false → s.tree[rel]? = some b → s.remote[rel]? = some b

/-- A resolver has the same answer from both trees, whatever it knows. -/
def ResolvesAlike (s : State) : Prop := ∀ arrange arrange', (∀ l, (arrange l : List String).Perm l) →
  (∀ l, (arrange' l : List String).Perm l) → ∀ call known,
    resolve c (metaTree arrange s.remote) call known = resolve c (metaTree arrange' s.tree) call known

variable {c}

/-- A push exports, and then syncs if the export went well. -/
theorem push_cases (p : Push) (s : State) :
    (push c p s).2.tree = (exported c p s.tree).2 ∧ Synced (exported c p s.tree).2 s.remote (push c p s).2.remote ∧
      ∀ n, (push c p s).1 = .ok n → ∀ rel, isPrivate rel = false → rel ∈ (exported c p s.tree).2 → rel ∈ (push c p s).2.remote := by
  unfold push
  cases exported c p s.tree with
  | mk r tree =>
      cases r with
      | error e => exact ⟨rfl, .refl _ _, nofun⟩
      | ok =>
          refine ⟨rfl, syncFiles_synced _ 0 0 s.remote, fun n ok rel published mem => ?_⟩
          dsimp only at ok ⊢
          have listed : rel ∈ p.listing tree.keys := (p.listing_perm _).mem_iff.mpr (ExtTreeMap.mem_keys.mpr mem)
          rw [syncTree] at ok ⊢
          cases done : (syncFiles p.net tree (p.listing tree.keys) 0 0 s.remote).1 with
          | error e =>
              rw [done] at ok
              cases ok
          | ok n' => exact syncFiles_complete done listed published

/-- The remote has published files only, and none that the local tree does not have. -/
theorem Pushed.within {s : State} (reached : Pushed c s) {rel : String} {b : Bytes} (there : s.remote[rel]? = some b) :
    isPrivate rel = false ∧ rel ∈ s.tree := by
  induction reached with
  | start =>
      rw [ExtTreeMap.getElem?_empty] at there
      cases there
  | @push s before p ih =>
      obtain ⟨same, synced, -⟩ := push_cases (c := c) p s
      rw [same]
      rcases synced.added rel b there with old | ⟨published, new⟩
      · exact ⟨(ih old).1, mem_exported (ih old).2⟩
      · refine ⟨published, ?_⟩
        rw [ExtTreeMap.mem_iff_isSome_getElem?, new]
        rfl

/-- After a push that ends well the remote is a mirror, and resolves as one, just when the
files that it had before it are still the same in the local tree. -/
theorem mirror_iff_kept {s : State} (reached : Pushed c s) {p : Push} {n : Nat × Nat} {s' : State}
    (done : push c p s = (.ok n, s')) :
    (Mirrors s' ∧ ResolvesAlike c s') ↔
      ∀ (rel : String) (old b : Bytes), s.remote[rel]? = some old → s'.tree[rel]? = some b → old = b := by
  obtain ⟨same, synced, complete⟩ := push_cases (c := c) p s
  have reached' : Pushed c s' := by
    have := reached.push p
    rwa [done] at this
  rw [done] at same synced complete
  rw [← same] at synced complete
  constructor
  · rintro ⟨mirrors, -⟩ rel old b there here
    have kept := synced.kept rel old there
    have shown := mirrors rel b (reached'.within kept).1 here
    rw [kept, Option.some.injEq] at shown
    exact shown
  · intro kept
    have mirrors : Mirrors s' := by
      intro rel b published here
      have mem : rel ∈ s'.tree := by
        rw [ExtTreeMap.mem_iff_isSome_getElem?, here]
        rfl
      have there := complete n rfl rel published mem
      rw [ExtTreeMap.mem_iff_isSome_getElem?, Option.isSome_iff_exists] at there
      obtain ⟨b', held⟩ := there
      rcases synced.added rel b' held with old | ⟨-, new⟩
      · rw [held, kept rel b' b old here]
      · rw [held, ← new, here]
    refine ⟨mirrors, fun arrange arrange' perm perm' call known => resolve_congr (fun f => ?_) call known⟩
    rw [metaTree_file perm, metaTree_file perm']
    cases here : s'.tree[relOf f]? with
    | some b => exact mirrors _ b (relOf_published f) here
    | none =>
        cases there : s'.remote[relOf f]? with
        | none => rfl
        | some b =>
            have mem := (reached'.within there).2
            rw [ExtTreeMap.mem_iff_isSome_getElem?, here] at mem
            cases mem

section Sample

/-- A store that writes three short documents for every asset. -/
def sampleView : PushView where
  assetManifest name := .ok (sampleManifest name)
  chunkMapRuns _ := .ok []
  assetFiles _ := .ok ⟨[], .ok [1], .ok [2], .ok [3]⟩

/-- A push of one asset in which everything goes well. -/
def samplePush (name : String) : Push where
  view := sampleView
  hidden := []
  hidden_private := nofun
  names := [name]
  arrange := id
  arrange_perm := List.Perm.refl
  listing := id
  listing_perm := List.Perm.refl
  net := ⟨fun _ => true, fun _ => true, fun _ => true⟩

theorem run_bind_ok {α β : Type} {m : ExportM α} {f : α → ExportM β} {files files' : Files} {a : α}
    (first : m.run.run files = (.ok a, files')) : (m >>= f).run.run files = (f a).run.run files' := by
  rw [ExceptT.run_bind, StateT.run_bind, first]
  rfl

theorem run_writeSome (rel : String) (b : Bytes) (files : Files) :
    (writeSome rel (some b)).run.run files = (.ok (), files.insert rel b) := rfl

/-- The index that an export leaves has its meta-pack last. -/
theorem exportMeta_sample (name : String) (files : Files) :
    ((exportMeta sampleView c id [name]).run.run files).1 = .ok () ∧ ∃ g l i,
      ((exportMeta sampleView c id [name]).run.run files).2[metaIndexRel]? = some (c.indexJson ⟨1, g, l ++ [⟨i, [name]⟩]⟩) := by
  have objects : exportObjects sampleView.toStoreView [name] = .ok [⟨name, sampleManifest name, [], []⟩] := rfl
  obtain ⟨i, packs, g, l, made⟩ : ∃ i packs g l, exportMetaPack c sampleView.toStoreView [name] (metaTree id files) =
      (.ok (some i), { metaTree id files with packs, index := some (c.indexJson ⟨1, g, l ++ [⟨i, [name]⟩]⟩) }) := by
    rw [exportMetaPack, if_neg (List.cons_ne_nil _ _), objects]
    exact ⟨_, _, _, _, rfl⟩
  have rest : (exportMeta sampleView c id [name]).run.run files =
      ((writeSome (metaRel i) (packs.lookup i) >>= fun _ =>
        writeSome metaIndexRel (some (c.indexJson ⟨1, g, l ++ [⟨i, [name]⟩]⟩))) : ExportM Unit).run.run files := by
    have got : (get : ExportM Files).run.run files = (.ok files, files) := rfl
    rw [exportMeta, run_bind_ok got, made]
  have wrote : ∃ files', (writeSome (metaRel i) (packs.lookup i)).run.run files = (.ok (), files') := by
    cases packs.lookup i with
    | none => exact ⟨files, rfl⟩
    | some b => exact ⟨_, rfl⟩
  obtain ⟨files', wrote⟩ := wrote
  rw [rest, run_bind_ok wrote, run_writeSome]
  exact ⟨rfl, g, l, i, ExtTreeMap.getElem?_insert_self⟩

theorem exported_samplePush (name : String) (tree : Files) :
    (exported c (samplePush name) tree).1 = .ok () ∧ ∃ g l i,
      (exported c (samplePush name) tree).2[metaIndexRel]? = some (c.indexJson ⟨1, g, l ++ [⟨i, [name]⟩]⟩) := by
  have assets : ∃ files, (exportAssets sampleView [name]).run.run tree = (.ok (), files) := ⟨_, rfl⟩
  obtain ⟨files, assets⟩ := assets
  have session : exported c (samplePush name) tree = (exportMeta sampleView c id [name]).run.run files := run_bind_ok assets
  rw [session]
  exact exportMeta_sample name files

/-- With every request answered, a sync of what is there goes well. -/
theorem syncFiles_ok {tree : Files} (l : List String) (there : ∀ rel ∈ l, rel ∈ tree) (put skipped : Nat) (remote : Files) :
    ∃ n, (syncFiles ⟨fun _ => true, fun _ => true, fun _ => true⟩ tree l put skipped remote).1 = .ok n := by
  induction l generalizing put skipped remote with
  | nil => exact ⟨_, rfl⟩
  | cons rel rest ih =>
      have more := ih fun r mem => there r (List.mem_cons_of_mem _ mem)
      have mem := there rel List.mem_cons_self
      rw [ExtTreeMap.mem_iff_isSome_getElem?, Option.isSome_iff_exists] at mem
      obtain ⟨bytes, found⟩ := mem
      unfold syncFiles
      split
      · exact more put skipped remote
      · rw [if_neg (by simp)]
        split
        · exact more put (skipped + 1) remote
        · rw [found]
          exact more (put + 1) skipped _

theorem samplePush_ok (name : String) (s : State) : ∃ n, (push c (samplePush name) s).1 = .ok n := by
  have done := (exported_samplePush (c := c) name s.tree).1
  unfold push
  cases ran : exported c (samplePush name) s.tree with
  | mk r tree =>
      rw [ran] at done
      cases done
      obtain ⟨n, ok⟩ := syncFiles_ok tree.keys (fun _ mem => ExtTreeMap.mem_keys.mp mem) 0 0 s.remote
      refine ⟨n, ?_⟩
      change (syncFiles ⟨fun _ => true, fun _ => true, fun _ => true⟩ tree tree.keys 0 0 s.remote).1.mapError PushError.sync = _
      rw [ok]
      rfl

theorem ends_ok {p : Push} {s : State} {n : Nat × Nat} (ok : (push c p s).1 = .ok n) : push c p s = (.ok n, (push c p s).2) :=
  Prod.ext ok rfl

/-- The state after a first push of one asset. -/
noncomputable def samplePushed : State := (push countingMeta (samplePush "a") ⟨∅, ∅⟩).2

theorem samplePushed_reached : Pushed countingMeta samplePushed := Pushed.start.push (samplePush "a")

theorem mirror_iff_kept_first : Pushed countingMeta samplePushed ∧
    ∃ n, (push countingMeta (samplePush "b") samplePushed).1 = .ok n ∧
      ((Mirrors (push countingMeta (samplePush "b") samplePushed).2 ∧
          ResolvesAlike countingMeta (push countingMeta (samplePush "b") samplePushed).2) ↔
        ∀ (rel : String) (old b : Bytes), samplePushed.remote[rel]? = some old →
          (push countingMeta (samplePush "b") samplePushed).2.tree[rel]? = some b → old = b) := by
  obtain ⟨n, ok⟩ := samplePush_ok (c := countingMeta) "b" samplePushed
  exact ⟨samplePushed_reached, n, ok, mirror_iff_kept samplePushed_reached (ends_ok ok)⟩

/-- If a push that goes well leaves a mirror, the remote has the new index. -/
theorem sample_index {name : String} {s : State} (mirrors : Mirrors (push c (samplePush name) s).2) :
    ∃ g l i, (push c (samplePush name) s).2.remote[metaIndexRel]? = some (c.indexJson ⟨1, g, l ++ [⟨i, [name]⟩]⟩) := by
  obtain ⟨-, g, l, i, index⟩ := exported_samplePush (c := c) name s.tree
  refine ⟨g, l, i, mirrors metaIndexRel _ (relOf_published .index) ?_⟩
  rw [(push_cases (samplePush name) s).1]
  exact index

/-- The second push rewrites the index of the meta-packs, and the remote keeps the first. -/
theorem second_push_unmirrored : ¬ ∀ (c : MetaCodec) (s : State), Pushed c s → ∀ (p : Push) (n : Nat × Nat) (s' : State),
    push c p s = (.ok n, s') → Mirrors s' := by
  intro always
  have mirrors : ∀ name s, Pushed countingMeta s → Mirrors (push countingMeta (samplePush name) s).2 := by
    intro name s reached
    obtain ⟨n, ok⟩ := samplePush_ok (c := countingMeta) name s
    exact always _ s reached _ n _ (ends_ok ok)
  obtain ⟨g, l, i, old⟩ := sample_index (mirrors "a" ⟨∅, ∅⟩ .start)
  obtain ⟨g', l', i', new⟩ := sample_index (mirrors "b" samplePushed samplePushed_reached)
  have kept := (push_cases (c := countingMeta) (samplePush "b") samplePushed).2.1.kept _ _ old
  rw [kept, Option.some.injEq] at new
  have files := congrArg countingMeta.indexFromJson new
  rw [countingMeta.indexFromJson_indexJson, countingMeta.indexFromJson_indexJson, Except.ok.injEq, MetaIndexFile.mk.injEq] at files
  have last := congrArg List.getLast? files.2.2
  rw [List.getLast?_concat, List.getLast?_concat, Option.some.injEq, MetaIndexPack.mk.injEq] at last
  exact absurd last.2 (by decide)

end Sample

end Runs
end Cavs.Mirror
