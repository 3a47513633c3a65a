import Cavs.Fetch

/-!
# A fetch is byte-exact or fails

The download leaves the files of the output alone, in whatever order the workers move. Each
track is then written beside its place and renamed into it. That keeps every other file
whole, unless the temporary name of a track belongs to another file.
-/
namespace Cavs
open FileProg (Bytes File IoError Op Prog World get_del_ne get_put_self)
open FileProg.Eff (All Wp exec_runs forEach get modify op orThrow throw wp_append wp_good wp_iff wp_ite
  wp_read wp_remove wp_rename wp_write)
open Relation (ReflTransGen)

/-- The operation changes no file of the output. -/
def LeavesOut (o : Op FetchPath Unit) : Prop := ∀ path, ¬ o.touches (.out path)

/-- The files of the output are the same. -/
def SameOut (w v : FetchDisk) : Prop := ∀ path, v.get (.out path) = w.get (.out path)

section Download
variable {env : ContainerEnv} {replies : Nat → Except Unit Bytes}

variable {O : Op FetchPath Unit → Prop}

theorem request_all : (request replies).All O :=
  All.bind All.get fun _ => .bind (.modify _) fun _ => .pure _

theorem getRangeRetrying_all (pack : String) (offset len : Nat) :
    (getRangeRetrying replies pack offset len).All O := by
  unfold getRangeRetrying
  extract_lets again
  have inner : again.All O := by
    apply All.bind request_all
    intro r
    cases r with
    | error e => exact .throw _
    | ok bytes =>
        dsimp only
        split
        · exact .pure _
        · exact .throw _
  apply All.bind request_all
  intro r
  cases r with
  | error e => exact inner
  | ok bytes =>
      dsimp only
      split
      · exact .pure _
      · exact inner

/-- The operations that put a chunk into the cache. -/
structure PutsBy (O : Op FetchPath Unit → Prop) (hash : ChunkHash) : Prop where
  present : O (.present (.chunk (toHex hash)))
  mkdir : ∀ front, O (.mkdir (.cacheDir front))
  write : ∀ payload, O (.write (.chunkTmp (toHex hash)) payload)
  rename : O (.rename (.chunkTmp (toHex hash)) (.chunk (toHex hash)))

theorem cachePut_all {hash : ChunkHash} (puts : PutsBy O hash) (payload : Bytes) : (cachePut hash payload).All O := by
  rw [cachePut]
  apply All.bind (.op puts.present)
  intro found
  split
  · exact .pure _
  · apply All.bind (.op (puts.mkdir _))
    intro r
    apply All.bind (.orThrow _ _)
    intro _
    apply All.bind (.op (puts.write _))
    intro r
    apply All.bind (.orThrow _ _)
    intro _
    apply All.bind (.op puts.rename)
    intro r
    exact .orThrow _ _

theorem fetchEntry_all {entry : ChunkMapEntry} (puts : ∀ hash, fromHex entry.hash = some hash → PutsBy O hash)
    (group : RangeGroup) (wire : Bytes) : (fetchEntry env replies group wire entry).All O := by
  rw [fetchEntry]
  split
  · exact .throw _
  · rename_i hash named
    dsimp only
    split
    · exact .throw _
    · apply All.bind
      · split
        · exact .pure _
        · apply All.bind (.modify _)
          intro _
          apply All.bind (getRangeRetrying_all _ _ _)
          intro alone
          apply All.bind (.modify _)
          intro _
          split
          · exact .pure _
          · exact .throw _
      · intro raw
        exact .bind (.modify _) fun _ => cachePut_all (puts hash named) _

/-- A group is fetched by putting its chunks into the cache. -/
theorem fetchGroup_all {group : RangeGroup}
    (puts : ∀ entry ∈ group.chunks, ∀ hash, fromHex entry.hash = some hash → PutsBy O hash) :
    (fetchGroup env replies group).All O := by
  rw [fetchGroup]
  apply All.bind (getRangeRetrying_all _ _ _)
  intro wire
  apply All.bind (.modify _)
  intro _
  exact .bind (.forEach fun entry mem => fetchEntry_all (puts entry mem) group wire) fun _ => .modify _

theorem puts_leave (hash : ChunkHash) : PutsBy LeavesOut hash where
  present := fun _ => id
  mkdir := fun _ _ touched => by cases touched
  write := fun _ _ touched => by cases touched
  rename := fun _ touched => by rcases touched with h | h <;> cases h

theorem fetchGroup_leaves (group : RangeGroup) : (fetchGroup env replies group).All LeavesOut :=
  fetchGroup_all fun _ _ hash _ => puts_leave hash

variable {σ : FetchSem} {auto : Bool} {groups : List RangeGroup}

/-- What a worker still has to do changes no file of the output. -/
def Worker.Leaves : Worker → Prop
  | .working rest => rest.All LeavesOut
  | _ => True

theorem WorkerStep.leaves {sh sh' : Shared} {w v : FetchDisk} {a b : Worker}
    (step : WorkerStep env σ auto groups sh w a sh' v b) (quiet : a.Leaves) : SameOut w v ∧ b.Leaves := by
  cases step with
  | claim replies found => exact ⟨fun _ => rfl, fetchGroup_leaves _ _⟩
  | operate does => exact ⟨fun path => does.frame (quiet.1 path), quiet.2 _⟩
  | latched | going | cancelled | uncancelled | parked | exhausted | landed | failed | panicked =>
      exact ⟨fun _ => rfl, trivial⟩

theorem PoolStep.leaves {p q : Pool} (step : PoolStep env σ auto groups p q) (quiet : ∀ a ∈ p.workers, a.Leaves) :
    SameOut p.disk q.disk ∧ ∀ a ∈ q.workers, a.Leaves := by
  cases step with
  | cancel => exact ⟨fun _ => rfl, quiet⟩
  | work found step =>
      obtain ⟨same, left⟩ := step.leaves (quiet _ (List.mem_of_getElem? found))
      refine ⟨same, fun c mem => ?_⟩
      rcases List.mem_or_eq_of_mem_set mem with old | rfl
      · exact quiet c old
      · exact left

/-- No order of steps changes a file of the output. -/
theorem fetchMissingParallel_leaves {connections : Nat} {w v : FetchDisk} {r : Except Stop GroupOutcome}
    (run : FetchMissingParallel env σ groups connections w r v) : SameOut w v := by
  rw [FetchMissingParallel] at run
  split at run
  · obtain ⟨-, rfl⟩ := run
    exact fun _ => rfl
  · obtain ⟨p, steps, -, rfl, -⟩ := run
    suffices kept : SameOut w p.disk ∧ ∀ a ∈ p.workers, a.Leaves from kept.1
    induction steps with
    | refl =>
        refine ⟨fun _ => rfl, fun a mem => ?_⟩
        rw [List.eq_of_mem_replicate mem]
        trivial
    | tail _ step ih =>
        obtain ⟨same, left⟩ := step.leaves ih.2
        exact ⟨fun path => (same path).trans (ih.1 path), left⟩

end Download

section Prepare
variable {env : ContainerEnv}

variable {O : Op FetchPath Unit → Prop}

theorem missingChunks_all (present : ∀ hex, O (.present (.chunk hex))) (chunks : List ChunkMapEntry) (order : List String) :
    (missingChunks chunks order).All O := by
  induction order with
  | nil => exact .pure _
  | cons hex rest ih =>
      rw [missingChunks]
      apply All.bind
      · rw [cacheContains]
        split
        · exact .pure _
        · split
          · exact .throw _
          · exact .op (present hex)
      · intro found
        split
        · exact .bind ih fun _ => .pure _
        · split
          · exact .throw _
          · exact .bind ih fun _ => .pure _

theorem planEntries_all (missing : List ChunkMapEntry) (groups : List RangeGroup) : (planEntries missing groups).All O := by
  induction missing generalizing groups with
  | nil => exact .pure _
  | cons entry rest ih =>
      rw [planEntries]
      apply All.bind _ ih
      unfold planEntry
      dsimp only
      split
      · exact .pure _
      · split
        · exact .pure _
        · exact .pure _

/-- Preparing makes the cache and asks what is there. -/
theorem prepare_all (mkdir : O (.mkdir .cacheRoot)) (present : ∀ hex, O (.present (.chunk hex))) (call : FetchCall)
    (order : List String) : (prepare env call order).All O := by
  rw [prepare]
  apply All.bind (.op mkdir)
  intro r
  apply All.bind (.orThrow _ _)
  intro _
  split
  · exact .throw _
  · apply All.bind
    · unfold checkSigner
      split
      · exact .pure _
      · split
        · exact .pure _
        · exact .throw _
    · intro _
      apply All.bind (missingChunks_all present _ _)
      intro missing
      exact .bind (planEntries_all _ _) fun _ => .pure _

theorem prepare_leaves (call : FetchCall) (order : List String) : (prepare env call order).All LeavesOut :=
  prepare_all (fun _ touched => by cases touched) (fun _ _ => id) call order

theorem leaves_of_runs {σ : FetchSem} {α : Type} {m : F α} (quiet : m.All LeavesOut) {s t : GroupOutcome}
    {w v : FetchDisk} {r : Except Stop α} (run : m.Runs σ s w r t v) : SameOut w v :=
  fun path => (quiet s).frame (fun _ leaves => leaves path) (Prog.runs_crashes run)

end Prepare
section Write
variable (env : ContainerEnv) (sha256 : Bytes → ChunkHash) (manifest : Manifest)

/-- The bytes are made of byte strings that have the names listed for the track. -/
def Exact (track : ManifestTrack) (b : Bytes) : Prop :=
  ∃ parts, List.Forall₂ (fun hex part => fromHex hex = some (env.hashChunk part)) (listedHashes manifest track) parts ∧
    b = parts.flatten

/-- The file of a track holds the bytes of the track. -/
def Written (track : ManifestTrack) (w : FetchDisk) : Prop :=
  ∃ f, w.get (.out (pathParts track.name)) = some f ∧ Exact env manifest track f.bytes

/-- A file that was there holds what it held, or the complete bytes of its track. -/
def Whole (tracks : List ManifestTrack) (w v : FetchDisk) : Prop :=
  ∀ path f, w.get (.out path) = some f → ∃ g, v.get (.out path) = some g ∧
    (g.bytes = f.bytes ∨ ∃ track ∈ tracks, pathParts track.name = path ∧ Exact env manifest track g.bytes)

/-- The temporary name of a track is no file's name: of no earlier track and of no file that
is there. -/
structure Clear (w : FetchDisk) : Prop where
  distinct : manifest.tracks.Pairwise fun earlier later => pathParts later.name ≠ pathParts earlier.name
  apart : manifest.tracks.Pairwise fun earlier later => partPath (pathParts later.name) ≠ .out (pathParts earlier.name)
  fresh : ∀ track ∈ manifest.tracks, ∀ path, partPath (pathParts track.name) = .out path → w.get (.out path) = none

end Write

section Steps
variable {env : ContainerEnv} {mayFail : Op FetchPath Unit → FetchDisk → Prop} {s : GroupOutcome} {u v w : FetchDisk}
  {f : File}

/-- A file of the output, or the one beside it. -/
def FetchPath.IsOut : FetchPath → Prop
  | .beside | .out _ => True
  | _ => False

theorem partPath_isOut (path : List Part) : (partPath path).IsOut := by
  rw [partPath]
  split
  · trivial
  · trivial

/-- No file but `tmp` changed in the output. -/
def OnlyTmp (tmp : FetchPath) (v u : FetchDisk) : Prop := ∀ path, .out path ≠ tmp → u.get (.out path) = v.get (.out path)

theorem OnlyTmp.trans {tmp : FetchPath} (first : OnlyTmp tmp v u) (second : OnlyTmp tmp u w) : OnlyTmp tmp v w :=
  fun path other => (second path other).trans (first path other)

theorem onlyTmp_put (tmp : FetchPath) (b : Bytes) (t : Nat) : OnlyTmp tmp u (u.put tmp b t) :=
  fun _ other => FileProg.get_put_ne other ..

theorem onlyTmp_del (tmp : FetchPath) : OnlyTmp tmp u (u.del tmp) := fun _ other => get_del_ne other _

theorem cacheGet_wp (hash : ChunkHash) :
    (cacheGet env hash).Wp (fetchSem mayFail) (fun _ => True)
      (fun r _ x => (∀ q, q.IsOut → x.get q = u.get q) ∧ ∀ b, r = .ok (some b) → env.hashChunk b = hash) s u := by
  rw [cacheGet]
  apply Wp.then
  apply wp_read trivial
  · intro f found
    change (if env.hashChunk f.bytes ≠ hash then _ else _ : F (Option Bytes)).Wp _ _ _ _ _
    apply wp_ite
    · intro wrong
      apply Wp.then
      apply wp_remove trivial
      · intro _
        refine ⟨trivial, trivial, fun q inOut => get_del_ne ?_ _, fun b none => by cases none⟩
        rintro rfl
        exact inOut
      · exact fun _ => ⟨trivial, fun _ _ => rfl, fun b none => by cases none⟩
      · exact fun _ => ⟨trivial, fun _ _ => rfl, fun b none => by cases none⟩
    · intro right
      refine ⟨trivial, fun _ _ => rfl, fun b same => ?_⟩
      cases same
      exact not_not.mp right
  · exact fun _ => ⟨trivial, fun _ _ => rfl, fun b none => by cases none⟩
  · exact fun _ => ⟨trivial, fun _ _ => rfl, fun b none => by cases none⟩

variable {tmp : FetchPath}

/-- A chunk is appended whole, or the file is given up. -/
theorem writeChunk_wp (aside : tmp.IsOut) (hex : String) (held : u.get tmp = some f) :
    (writeChunk env tmp hex).Wp (fetchSem mayFail) (fun _ => True)
      (fun r _ x => OnlyTmp tmp u x ∧ ∀ b, r = .ok b →
        (∃ g, x.get tmp = some g ∧ g.bytes = f.bytes ++ b) ∧ fromHex hex = some (env.hashChunk b)) s u := by
  rw [writeChunk]
  cases named : fromHex hex with
  | none => exact ⟨trivial, fun _ _ => rfl, fun b bad => by cases bad⟩
  | some hash =>
      refine Wp.seq (cacheGet_wp hash) ?_ ?_
      · rintro (none | bytes) t x - ⟨same, right⟩
        · exact ⟨trivial, fun path _ => same _ trivial, fun b bad => by cases bad⟩
        · have held' : x.bytes tmp = f.bytes := FileProg.bytes_of_get ((same tmp aside).trans held)
          have kept : OnlyTmp tmp u x := fun path _ => same _ trivial
          apply Wp.then
          apply wp_append rfl trivial (fun _ _ => trivial)
          · intro time
            refine ⟨trivial, kept.trans (onlyTmp_put tmp _ time), fun b same => ?_⟩
            cases same
            refine ⟨⟨_, get_put_self .., ?_⟩, ?_⟩
            · rw [held']
            · rw [right bytes rfl]
          · rintro - y (rfl | ⟨n, time, rfl⟩)
            · exact ⟨trivial, kept, fun b bad => by cases bad⟩
            · exact ⟨trivial, kept.trans (onlyTmp_put tmp _ time), fun b bad => by cases bad⟩
      · rintro e t x ⟨same, -⟩
        exact ⟨fun path _ => same _ trivial, fun b bad => by cases bad⟩

/-- The chunks of a track one after another. -/
theorem writeChunks_wp (aside : tmp.IsOut) (hexes : List String) (held : u.get tmp = some f) :
    (writeChunks env tmp hexes).Wp (fetchSem mayFail) (fun _ => True)
      (fun r _ x => OnlyTmp tmp u x ∧ ∀ b, r = .ok b → (∃ g, x.get tmp = some g ∧ g.bytes = f.bytes ++ b) ∧
        ∃ parts, List.Forall₂ (fun hex part => fromHex hex = some (env.hashChunk part)) hexes parts ∧
          b = parts.flatten) s u := by
  induction hexes generalizing s u f with
  | nil =>
      refine ⟨trivial, fun _ _ => rfl, fun b same => ?_⟩
      cases same
      exact ⟨⟨f, held, (List.append_nil _).symm⟩, [], .nil, rfl⟩
  | cons hex rest ih =>
      rw [writeChunks]
      refine Wp.seq (writeChunk_wp aside hex held) ?_ ?_
      · rintro bytes t x - ⟨kept, appended⟩
        obtain ⟨⟨g, held', grown⟩, named⟩ := appended bytes rfl
        refine Wp.seq (ih held') ?_ ?_
        · rintro more t' y - ⟨kept', appended'⟩
          obtain ⟨⟨g', held'', grown'⟩, parts, listed, rfl⟩ := appended' more rfl
          refine ⟨trivial, kept.trans kept', fun b same => ?_⟩
          cases same
          refine ⟨⟨g', held'', ?_⟩, bytes :: parts, .cons named listed, rfl⟩
          rw [grown', grown, List.append_assoc]
        · rintro e t' y ⟨kept', -⟩
          exact ⟨kept.trans kept', fun b bad => by cases bad⟩
      · rintro e t x ⟨kept, -⟩
        exact ⟨kept, fun b bad => by cases bad⟩

theorem makeDirs_leaves (path : List Part) : (makeDirs path).All LeavesOut := by
  rw [makeDirs]
  apply All.forEach
  intro d _
  exact .bind (.op fun path touched => by cases touched) fun _ => .orThrow _ _

theorem wp_of_leaves {σ : FetchSem} {α : Type} {m : F α} (quiet : m.All LeavesOut) :
    m.Wp σ (fun _ => True) (fun _ _ x => SameOut u x) s u := by
  rw [wp_iff]
  exact ⟨fun _ _ => trivial, fun r t x run => leaves_of_runs quiet run⟩

end Steps

section Tracks
variable {env : ContainerEnv} {sha256 : Bytes → ChunkHash} {manifest : Manifest}
  {mayFail : Op FetchPath Unit → FetchDisk → Prop} {s : GroupOutcome} {u v w : FetchDisk} {f : File}
  {done : List ManifestTrack} {σ : FetchSem}

/-- What a track leaves: its file in its place and the rest as it was, or a temporary file. -/
def Landed (f : File → Prop) (name : String) (u : FetchDisk) : Except Stop Unit → FetchDisk → Prop
  | .ok (), x => (∃ g, x.get (.out (pathParts name)) = some g ∧ f g) ∧
      ∀ path, .out path ≠ partPath (pathParts name) → path ≠ pathParts name → x.get (.out path) = u.get (.out path)
  | .error _, x => OnlyTmp (partPath (pathParts name)) u x

theorem promote_wp (name : String) (held : u.get (partPath (pathParts name)) = some f) :
    (promote name).Wp (fetchSem mayFail) (fun _ => True) (fun r _ x => Landed (· = f) name u r x) s u := by
  rw [promote]
  apply wp_ite
  · intro _
    apply Wp.then
    apply wp_rename rfl trivial
    · intro g found
      rw [held, Option.some.injEq] at found
      subst found
      refine ⟨trivial, trivial, ⟨f, FileProg.get_move_self .., rfl⟩, fun path other apart => ?_⟩
      apply FileProg.get_move_ne _ other
      intro same
      injection same with same
      exact apart same
    · exact fun _ => ⟨trivial, fun _ _ => rfl⟩
    · exact fun _ => ⟨trivial, fun _ _ => rfl⟩
  · exact fun _ => ⟨trivial, fun _ _ => rfl⟩

theorem Landed.from {P : File → Prop} {name : String} (good : P f)
    (kept : OnlyTmp (partPath (pathParts name)) u v) {r : Except Stop Unit} (placed : Landed (· = f) name v r w) :
    Landed P name u r w := by
  cases r with
  | error e => exact kept.trans placed
  | ok _ =>
      obtain ⟨⟨g, found, rfl⟩, rest⟩ := placed
      exact ⟨⟨g, found, good⟩, fun path other apart => (rest path other apart).trans (kept path other)⟩

/-- A track is written in full and put in its place, or only its temporary file changed. -/
theorem writeTrack_wp (track : ManifestTrack) :
    (writeTrack env sha256 manifest track).Wp (fetchSem mayFail) (fun _ => True)
      (fun r _ x => Landed (fun g => Exact env manifest track g.bytes) track.name u r x) s u := by
  rw [writeTrack]
  apply wp_ite
  · exact fun _ => ⟨trivial, fun _ _ => rfl⟩
  intro _
  apply wp_ite
  · exact fun _ => ⟨trivial, fun _ _ => rfl⟩
  intro _
  refine Wp.seq (wp_of_leaves (makeDirs_leaves _)) ?_ fun e t x same path _ => same path
  intro _ t x _ same
  have dirs : OnlyTmp (partPath (pathParts track.name)) u x := fun path _ => same path
  apply Wp.then
  apply wp_write
  · rfl
  · trivial
  · exact fun _ _ => trivial
  · intro time
    have created := dirs.trans (onlyTmp_put (partPath (pathParts track.name)) [] time)
    apply wp_good
    refine Wp.seq (writeChunks_wp (partPath_isOut _) (listedHashes manifest track) (get_put_self ..)) ?_ ?_
    · rintro written t' y - ⟨kept, appended⟩
      obtain ⟨⟨g, held, whole⟩, exact_⟩ := appended written rfl
      have good : Exact env manifest track g.bytes := by
        rw [whole, List.nil_append]
        exact exact_
      have placed : (promote track.name).Wp (fetchSem mayFail) (fun _ => True)
          (fun r _ x => Landed (fun g => Exact env manifest track g.bytes) track.name u r x) t' y :=
        (promote_wp track.name held).mono (fun _ c => c) fun r _ z placed => placed.from good (created.trans kept)
      cases expectedSha256 manifest track.name with
      | none => exact placed
      | some expected =>
          dsimp only
          apply wp_ite
          · exact fun _ => placed
          · intro _
            apply Wp.then
            apply wp_remove trivial
            · exact fun _ => ⟨trivial, trivial, (created.trans kept).trans (onlyTmp_del _)⟩
            · exact fun _ => ⟨trivial, created.trans kept⟩
            · exact fun _ => ⟨trivial, created.trans kept⟩
    · rintro e t' y ⟨kept, -⟩
      exact created.trans kept
  · rintro - y (rfl | ⟨n, time, rfl⟩)
    · exact ⟨trivial, dirs⟩
    · exact ⟨trivial, dirs.trans (onlyTmp_put _ _ time)⟩

/-- Where a reconstruction stands: the tracks that are done are written, and every file that
was there is whole. -/
structure Progress (env : ContainerEnv) (manifest : Manifest) (done : List ManifestTrack) (w x : FetchDisk) : Prop where
  written : ∀ track ∈ done, Written env manifest track x
  whole : Whole env manifest done w x

theorem Whole.onlyTmp {tmp : FetchPath} (whole : Whole env manifest done w v)
    (fresh : ∀ path, tmp = .out path → w.get (.out path) = none) (kept : OnlyTmp tmp v u) :
    Whole env manifest done w u := by
  intro path f found
  obtain ⟨g, there, good⟩ := whole path f found
  refine ⟨g, ?_, good⟩
  rw [kept path, there]
  intro same
  rw [fresh path same.symm] at found
  cases found

/-- One more track is done. -/
theorem Progress.add {track : ManifestTrack} (progress : Progress env manifest done w v)
    (apart : ∀ earlier ∈ done, pathParts track.name ≠ pathParts earlier.name ∧
      partPath (pathParts track.name) ≠ .out (pathParts earlier.name))
    (fresh : ∀ path, partPath (pathParts track.name) = .out path → w.get (.out path) = none)
    (placed : Landed (fun g => Exact env manifest track g.bytes) track.name v (.ok ()) u) :
    Progress env manifest (done ++ [track]) w u := by
  obtain ⟨⟨g, found, good⟩, rest⟩ := placed
  constructor
  · intro t mem
    rcases List.mem_append.mp mem with old | new
    · obtain ⟨f, there, fine⟩ := progress.written t old
      refine ⟨f, ?_, fine⟩
      rw [rest _ (Ne.symm (apart t old).2) (Ne.symm (apart t old).1), there]
    · cases List.mem_singleton.mp new
      exact ⟨g, found, good⟩
  · intro path f there
    by_cases here : path = pathParts track.name
    · subst here
      exact ⟨g, found, .inr ⟨track, List.mem_append_right _ List.mem_cons_self, rfl, good⟩⟩
    · obtain ⟨g', there', fine⟩ := progress.whole path f there
      refine ⟨g', ?_, fine.imp_right ?_⟩
      · rw [rest path _ here, there']
        intro same
        rw [fresh path same.symm] at there
        cases there
      · rintro ⟨t, mem, same, fine⟩
        exact ⟨t, List.mem_append_left _ mem, same, fine⟩

theorem writeTracks_wp (clear : Clear manifest w) (todo done : List ManifestTrack)
    (split : manifest.tracks = done ++ todo) (progress : Progress env manifest done w u) :
    (writeTracks env sha256 manifest todo).Wp (fetchSem mayFail) (fun _ => True)
      (fun r _ x => match r with
        | .ok _ => ∀ track ∈ manifest.tracks, Written env manifest track x
        | .error _ => Whole env manifest manifest.tracks w x) s u := by
  induction todo generalizing done s u with
  | nil =>
      rw [List.append_nil] at split
      exact ⟨trivial, split ▸ progress.written⟩
  | cons track rest ih =>
      have mem : track ∈ manifest.tracks := split ▸ List.mem_append_right _ List.mem_cons_self
      have apart : ∀ earlier ∈ done, pathParts track.name ≠ pathParts earlier.name ∧
          partPath (pathParts track.name) ≠ .out (pathParts earlier.name) := by
        intro earlier old
        have distinct := clear.distinct
        have parts := clear.apart
        rw [split, List.pairwise_append] at distinct parts
        exact ⟨distinct.2.2 earlier old track List.mem_cons_self, parts.2.2 earlier old track List.mem_cons_self⟩
      rw [writeTracks]
      refine Wp.seq (writeTrack_wp track) ?_ ?_
      · rintro ⟨⟩ t x - placed
        have next := progress.add apart (clear.fresh track mem) placed
        refine Wp.seq (ih (done ++ [track]) (by rw [split, List.append_assoc, List.singleton_append]) next) ?_ ?_
        · intro primaries t' y _ written
          exact ⟨trivial, written⟩
        · intro e t' y whole
          exact whole
      · intro e t x kept path f found
        obtain ⟨g, there, fine⟩ := progress.whole.onlyTmp (clear.fresh track mem) kept path f found
        refine ⟨g, there, fine.imp_right ?_⟩
        rintro ⟨t, old, rest⟩
        exact ⟨t, split ▸ List.mem_append_left _ old, rest⟩

theorem reconstruct_wp (clear : Clear manifest w) (same : SameOut w u) :
    (reconstruct env sha256 manifest).Wp (fetchSem mayFail) (fun _ => True)
      (fun r _ x => match r with
        | .ok _ => ∀ track ∈ manifest.tracks, Written env manifest track x
        | .error _ => Whole env manifest manifest.tracks w x) s u := by
  rw [reconstruct]
  have kept : ∀ {x : FetchDisk}, SameOut u x → Whole env manifest manifest.tracks w x := by
    intro x still path f found
    exact ⟨f, by rw [still, same, found], .inl rfl⟩
  refine Wp.seq (wp_of_leaves (.op fun path touched => by cases touched)) ?_ fun e t x still => kept still
  intro r t x _ still
  refine Wp.seq (wp_of_leaves (.orThrow failIo r)) ?_ fun e t y still' => kept fun path => (still' path).trans (still path)
  intro _ t y _ still'
  apply writeTracks_wp clear manifest.tracks [] rfl
  constructor
  · intro track mem
    cases mem
  · intro path f found
    exact ⟨f, by rw [still', still, same, found], .inl rfl⟩

theorem wp_any {α : Type} (m : F α) : m.Wp σ (fun _ => True) (fun _ _ _ => True) s u := by
  rw [wp_iff]
  exact ⟨fun _ _ => trivial, fun _ _ _ _ => trivial⟩

theorem checkSigner_or (manifest : Manifest) (pubkey : Option String) :
    checkSigner env manifest pubkey = pure () ∨ ∃ e, checkSigner env manifest pubkey = throw e := by
  unfold checkSigner
  split
  · exact .inl rfl
  · split
    · exact .inl rfl
    · exact .inr ⟨_, rfl⟩

/-- What was prepared is the metadata that was resolved, if its signer is accepted. -/
theorem prepare_wp (call : FetchCall) (order : List String) :
    (prepare env call order).Wp σ (fun _ => True)
      (fun r _ _ => ∀ p, r = .ok p → (∃ chunks, call.resolved = .ok (p.1, chunks)) ∧
        checkSigner env p.1 call.pubkey = pure ()) s u := by
  rw [prepare]
  refine Wp.seq (wp_any _) ?_ fun e t x _ p same => by cases same
  intro r t x _ _
  refine Wp.seq (wp_any _) ?_ fun e t x _ p same => by cases same
  intro _ t x _ _
  cases resolved : call.resolved with
  | error e => exact ⟨trivial, fun p same => by cases same⟩
  | ok p =>
      obtain ⟨manifest, chunks⟩ := p
      rcases checkSigner_or manifest call.pubkey with accepted | ⟨e, refused⟩
      · refine Wp.seq (wp_any _) ?_ fun e t x _ p same => by cases same
        intro _ t x _ _
        refine Wp.seq (wp_any _) ?_ fun e t x _ p same => by cases same
        rintro ⟨missing, reused⟩ t x _ _
        refine Wp.seq (wp_any _) ?_ fun e t x _ p same => by cases same
        intro groups t x _ _
        refine ⟨trivial, fun p same => ?_⟩
        cases same
        exact ⟨⟨chunks, rfl⟩, accepted⟩
      · dsimp only
        rw [refused]
        exact ⟨trivial, fun p same => by cases same⟩

/-- If the temporary names are clear, a fetch that succeeds has written every track, and one
that fails has left every file whole. -/
theorem fetchStatic_exact (env : ContainerEnv) (sha256 : Bytes → ChunkHash)
    (mayFail : Op FetchPath Unit → FetchDisk → Prop) (call : FetchCall) (w v : FetchDisk) (r : Except Stop FetchStats)
    (clear : ∀ manifest chunks, call.resolved = .ok (manifest, chunks) → Clear manifest w)
    (run : FetchStatic env sha256 (fetchSem mayFail) call w r v) :
    (∀ stats, r = .ok stats → ∃ manifest chunks, call.resolved = .ok (manifest, chunks) ∧
      ∀ track ∈ manifest.tracks, Written env manifest track v) ∧
    ∀ e, r = .error (.fails e) → ∀ path f, w.get (.out path) = some f → ∃ g, v.get (.out path) = some g ∧
      (g.bytes = f.bytes ∨ ∃ manifest chunks, call.resolved = .ok (manifest, chunks) ∧
        ∃ track ∈ manifest.tracks, pathParts track.name = path ∧ Exact env manifest track g.bytes) := by
  have unchanged : SameOut w v → ∀ path f, w.get (.out path) = some f → v.get (.out path) = some f :=
    fun same path f found => by rw [same, found]
  cases run with
  | stopped order prepared =>
      have same := unchanged (leaves_of_runs (prepare_leaves call _) prepared)
      exact ⟨nofun, fun e _ path f found => ⟨f, same path f found, .inl rfl⟩⟩
  | interrupted order prepared download =>
      have same := leaves_of_runs (prepare_leaves call _) prepared
      have still := unchanged fun path => (fetchMissingParallel_leaves download path).trans (same path)
      exact ⟨nofun, fun e _ path f found => ⟨f, still path f found, .inl rfl⟩⟩
  | @finished order _ manifest groups reused t u total x r t' _ _ prepared download written =>
      have same := leaves_of_runs (prepare_leaves call _) prepared
      have still := fetchMissingParallel_leaves download
      obtain ⟨⟨chunks, resolved⟩, -⟩ := ((wp_iff _ _ _).mp (prepare_wp call order)).2 _ _ _ prepared _ rfl
      have ends := ((wp_iff _ _ _).mp (reconstruct_wp (clear manifest chunks resolved)
        fun path => (still path).trans (same path))).2 _ _ _ written
      cases r with
      | ok primaries =>
          constructor
          · exact fun stats _ => ⟨manifest, chunks, resolved, ends⟩
          · intro e bad
            cases bad
      | error e =>
          constructor
          · intro stats ok
            cases ok
          intro e _ path f found
          obtain ⟨g, there, fine⟩ := ends path f found
          refine ⟨g, there, fine.imp_right ?_⟩
          rintro ⟨track, mem, at_, good⟩
          exact ⟨manifest, chunks, resolved, track, mem, at_, good⟩

end Tracks

section Sample

/-- Two tracks without chunks. -/
def pairManifest (first second : String) : Manifest where
  asset := "asset"
  assetUuid := ""
  tracks := [⟨0, "data", "raw", first, 1, []⟩, ⟨1, "data", "raw", second, 1, []⟩]
  segments := []
  dict := []
  chunkTable := []
  merkleRoot := ""
  signature := none
  signerPubkey := none
  metaPairs := []

def pairCall (first second : String) : FetchCall := ⟨1, none, .ok (pairManifest first second, [])⟩

def faultless : Op FetchPath Unit → FetchDisk → Prop := fun _ _ => False

def pairDisk : FetchDisk := (World.empty : FetchDisk).put .cacheRoot [] 0

def pairEnd (first second : String) : Option ((Except Stop (List FetchPath) × GroupOutcome) × FetchDisk) :=
  (reconstruct plainEnv plainEnv.hashChunk (pairManifest first second) .zero).exec pairDisk

/-- No chunk is needed, so the fetch goes on to write the tracks. -/
theorem fetchStatic_pair {first second : String} {r : Except Stop (List FetchPath)} {t : GroupOutcome} {v : FetchDisk}
    (ended : pairEnd first second = some ((r, t), v)) :
    FetchStatic plainEnv plainEnv.hashChunk (fetchSem faultless) (pairCall first second) World.empty
      (r.map fun _ => ⟨.zero, 0, 0, 0⟩) v := by
  have order : (pairCall first second).Order [] := by
    intro manifest chunks resolved
    cases resolved
    exact .refl _
  have prepared : (prepare plainEnv (pairCall first second) []).Runs (fetchSem faultless) .zero World.empty
      (.ok (pairManifest first second, [], 0)) .zero pairDisk := exec_runs (fun _ => rfl) rfl
  have download : FetchMissingParallel plainEnv (fetchSem faultless) [] 1 pairDisk (.ok .zero) pairDisk := by
    rw [FetchMissingParallel, if_pos rfl]
    exact ⟨rfl, rfl⟩
  exact .finished order prepared download (exec_runs (fun _ => rfl) ended)

/-- The second track is first written over the file of the first and then renamed away. -/
theorem fetchStatic_inexact : ¬ ∀ (env : ContainerEnv) (sha256 : Bytes → ChunkHash)
    (mayFail : Op FetchPath Unit → FetchDisk → Prop) (call : FetchCall) (w v : FetchDisk) (r : Except Stop FetchStats),
    (∀ manifest chunks, call.resolved = .ok (manifest, chunks) →
      (manifest.tracks.map ManifestTrack.name).Nodup ∧ ∀ track ∈ manifest.tracks, unsafeName track.name = false) →
    FetchStatic env sha256 (fetchSem mayFail) call w r v →
    (∀ stats, r = .ok stats → ∃ manifest chunks, call.resolved = .ok (manifest, chunks) ∧
      ∀ track ∈ manifest.tracks, Written env manifest track v) ∧
    ∀ e, r = .error (.fails e) → ∀ path f, w.get (.out path) = some f → ∃ g, v.get (.out path) = some g ∧
      (g.bytes = f.bytes ∨ ∃ manifest chunks, call.resolved = .ok (manifest, chunks) ∧
        ∃ track ∈ manifest.tracks, pathParts track.name = path ∧ Exact env manifest track g.bytes) := by
  intro exact_
  have ended : (pairEnd "a.cavspart" "a.bin").map (fun p => (p.1, p.2.get (.out ["a.cavspart".toList]))) =
      some ((.ok [.out ["a.cavspart".toList], .out ["a.bin".toList]], .zero), none) := by decide +kernel
  obtain ⟨⟨⟨r, t⟩, v⟩, ended, same⟩ := Option.map_eq_some_iff.mp ended
  obtain ⟨succeeded, gone⟩ := Prod.ext_iff.mp same
  cases succeeded
  have safe : ∀ manifest chunks, (pairCall "a.cavspart" "a.bin").resolved = .ok (manifest, chunks) →
      (manifest.tracks.map ManifestTrack.name).Nodup ∧ ∀ track ∈ manifest.tracks, unsafeName track.name = false := by
    intro manifest chunks resolved
    cases resolved
    decide +kernel
  obtain ⟨manifest, chunks, resolved, written⟩ :=
    (exact_ plainEnv plainEnv.hashChunk faultless _ _ _ _ safe (fetchStatic_pair ended)).1 _ rfl
  cases resolved
  obtain ⟨f, there, -⟩ := written _ List.mem_cons_self
  have place : pathParts "a.cavspart" = ["a.cavspart".toList] := by decide +kernel
  change v.get (.out (pathParts "a.cavspart")) = some f at there
  rw [place] at there
  rw [show v.get (.out ["a.cavspart".toList]) = none from gone] at there
  cases there

end Sample

end Cavs
