import Cavs.PlanDelivers

/-!
# A plan from its making to its execution

A plan that was built is read back as it was while its texts, its tables and its blob keep to
the limits of the decoder. Written out against the old build it gives the new one. A build
with more fresh bytes than the decoder takes gets a plan that cannot be read.
-/
namespace Cavs
open FileProg (Bytes)
open Signature (CavsSignature SignatureKind EntryContent BuilderCall SignatureBuilder ClearOf Grounded OpsTile DiffOp
  entriesOf blockCount clamped)

namespace NewBuild

theorem nodes_sound {source : NewBuild} {x : String × DiskNode} (mem : x ∈ source.nodes) :
    x.2.content.length < 2 ^ 64 ∧ ∀ target, x.2 = .symlink target → target ≠ [] := by
  cases source with
  | file name content sized =>
      rw [List.mem_singleton.mp mem]
      exact ⟨sized, nofun⟩
  | directory name tree =>
      obtain ⟨y, listed, rfl⟩ := List.mem_map.mp mem
      exact tree.sound.each (DiskTree.mem_listing.mp listed)

end NewBuild

namespace OfflinePlan

section Built
variable {hashChunk : Bytes → ChunkHash} {sig : CavsSignature} {kind : PlanKind} {source : NewBuild} {plan : OfflinePlan}

/-- A plan that was built is what the nodes gave, with the paths that are gone, and is valid. -/
theorem build_ok (h : build hashChunk sig kind source = .ok plan) : plan.validate = .ok () ∧ ∃ mode laid deleted,
    addNodes hashChunk sig kind (emptyPlan sig kind mode source.label) source.nodes = .ok laid ∧
      plan = { laid with deleted } := by
  have checked : ∀ {p : OfflinePlan}, Outcome.ofExcept p.validate = .ok () → p.validate = .ok () := by
    intro p valid
    cases found : p.validate with
    | ok => rfl
    | error e =>
        rw [found] at valid
        cases valid
  unfold build at h
  split at h
  · cases h
  · cases h
  · obtain ⟨laid, run, h⟩ := Outcome.ok_of_bindO h
    obtain ⟨⟨⟩, valid, last⟩ := Outcome.ok_of_bindO h
    cases last
    exact ⟨checked valid, .artifact, plan, plan.deleted, run, rfl⟩
  · obtain ⟨laid, run, h⟩ := Outcome.ok_of_bindO h
    obtain ⟨⟨⟩, valid, last⟩ := Outcome.ok_of_bindO h
    cases last
    exact ⟨checked valid, .directory, laid, _, run, rfl⟩

theorem build_entries (h : build hashChunk sig kind source = .ok plan) :
    plan.kind = kind ∧ plan.newEntries = source.nodes.zipIdx.map fun x => planEntry hashChunk x.2 x.1 := by
  obtain ⟨-, mode, laid, deleted, run, rfl⟩ := build_ok h
  obtain ⟨ops, blob, newSize, rfl⟩ := addNodes_keeps run
  exact ⟨rfl, rfl⟩

theorem build_named (h : build hashChunk sig kind source = .ok plan) : plan.Named := by
  intro e mem empty
  rw [(build_entries h).2] at mem
  obtain ⟨⟨⟨rel, node⟩, i⟩, there, rfl⟩ := List.mem_map.mp mem
  have sound := NewBuild.nodes_sound (List.fst_mem_of_mem_zipIdx there)
  cases node with
  | file content executable => cases empty
  | directory => cases empty
  | symlink target =>
      have blank : String.ofList (lossy target) = String.ofList [] := Option.some.inj empty
      exact lossy_ne_nil (sound.2 target rfl) (String.ofList_injective blank)

end Built

section Deliver
variable {hashChunk : Bytes → ChunkHash} {l : List EntryContent} {sig : CavsSignature} {kind : PlanKind}
  {source : NewBuild} {plan : OfflinePlan} {old : OldSource}

/-- Every operation can be carried out. -/
def Applies (plan : OfflinePlan) : Prop := ∀ op ∈ plan.ops, op.Applies plan.kind

/-- An entry stands for a node, and writing it gives the bytes of the node. -/
def Restores (plan : OfflinePlan) (old : OldSource) (x : String × DiskNode) (e : PlanEntry) : Prop :=
  e.path = x.1 ∧ match x.2 with
    | .file content executable => e.kind = .file ∧ e.executable = executable ∧ writeEntry plan e old = .ok content
    | .symlink target => e.kind = .symlink ∧ e.symlinkTarget = some (String.ofList (lossy target))
    | .directory => e.kind = .directory

/-- The entries stand for what is in the new build, one for one. -/
def Delivers (plan : OfflinePlan) (old : OldSource) (source : NewBuild) : Prop :=
  List.Forall₂ (plan.Restores old) source.nodes plan.newEntries

theorem forall₂_zipIdx {α β : Type} {R : α → β → Prop} {f : Nat → α → β} {l : List α} {k : Nat}
    (each : ∀ i x, l[i]? = some x → R x (f (k + i) x)) : List.Forall₂ R l ((l.zipIdx k).map fun x => f x.2 x.1) := by
  induction l generalizing k with
  | nil => exact .nil
  | cons x l ih =>
      refine .cons (each 0 x rfl) (ih fun i y there => ?_)
      rw [Nat.add_assoc, Nat.add_comm 1 i]
      exact each (i + 1) y there

theorem build_delivers (from_ : Old hashChunk l sig) (serves : ServesOld l old) (h : build hashChunk sig kind source = .ok plan)
    (clear : ∀ x ∈ source.nodes, ClearOf hashChunk l sig.blockSize.toNat x.2.content)
    (readable : plan.Readable) (applies : plan.Applies) : plan.Delivers old source := by
  obtain ⟨same, entries⟩ := build_entries h
  obtain ⟨-, mode, laid, deleted, run, rfl⟩ := build_ok h
  have count : source.nodes.length ≤ maxEntries := by
    have few := readable.fewNew
    rwa [entries, List.length_map, List.length_zipIdx] at few
  have cap : maxEntries < 2 ^ 32 := by decide
  have cap' : maxBlobRaw < 2 ^ 64 := by decide
  have word : laid.blob.length < 2 ^ 64 := Nat.lt_of_le_of_lt readable.blob cap'
  have start : Laid l kind [] (emptyPlan sig kind mode source.label) := ⟨rfl, nofun, nofun, nofun⟩
  have done := addNodes_laid from_ start (by rw [List.length_nil]; omega) (fun x mem => (NewBuild.nodes_sound mem).1) clear run
  rw [List.nil_append] at done
  unfold Delivers
  rw [entries]
  refine forall₂_zipIdx fun i x there => ?_
  obtain ⟨rel, node⟩ := x
  rw [Nat.zero_add]
  cases node with
  | symlink target => exact ⟨rfl, rfl, rfl⟩
  | directory => exact ⟨rfl, rfl⟩
  | file content executable =>
      refine ⟨rfl, rfl, rfl, ?_⟩
      have written := writeOps_content serves word (done.tiles i rel content executable there) fun op mem mine =>
        done.right word i rel content executable there op mem mine (same ▸ applies op mem)
      rw [Nat.sub_zero, List.drop_zero, List.take_length] at written
      exact written

end Deliver

/-- A plan is read back as it was when it is valid, names the targets of its symlinks and
keeps to the limits of the decoder; a plan that was built is valid and names them, and
carried out against the build that was signed it gives the new build. -/
theorem plan_codec (env : Env) (zstd : BlobCompressor env) (level : Int) :
    (∀ plan : OfflinePlan, decode env (encode zstd level plan) = .ok plan ↔
      plan.validate = .ok () ∧ plan.Readable ∧ plan.Named) ∧
    (∀ sig kind source plan, build env.hashChunk sig kind source = .ok plan →
      (decode env (encode zstd level plan) = .ok plan ↔ plan.Readable)) ∧
    ∀ (oldKind : SignatureKind) (requested : UInt32) (profile label : String) (calls : List BuilderCall)
      (b : SignatureBuilder), (SignatureBuilder.start oldKind requested profile).calls env.hashChunk calls = some b →
      (entriesOf calls).length ≤ 2 ^ 32 → blockCount (clamped requested).toNat (entriesOf calls) ≤ 2 ^ 32 →
      ∀ kind source plan, build env.hashChunk (b.finish env.hashChunk label) kind source = .ok plan →
        (∀ x ∈ source.nodes, ClearOf env.hashChunk (entriesOf calls) (clamped requested).toNat x.2.content) →
        plan.Readable → plan.Applies → ∀ old, ServesOld (entriesOf calls) old →
          ∃ read, decode env (encode zstd level plan) = .ok read ∧ read.Delivers old source := by
  have built : ∀ sig kind source plan, build env.hashChunk sig kind source = .ok plan →
      (decode env (encode zstd level plan) = .ok plan ↔ plan.Readable) := by
    intro sig kind source plan made
    rw [decode_encode_iff]
    exact ⟨fun fine => fine.2.1, fun readable => ⟨(build_ok made).1, readable, build_named made⟩⟩
  refine ⟨fun plan => decode_encode_iff zstd, built, ?_⟩
  intro oldKind requested profile label calls b ran few few' kind source plan made clear readable applies old serves
  have pos : 0 < (clamped requested).toNat := Nat.lt_of_lt_of_le (by decide) (Signature.clamped_bounds requested).1
  refine ⟨plan, (built _ kind source plan made).mpr readable, ?_⟩
  rw [Signature.finish_eq label ran] at made
  exact build_delivers ⟨Signature.signatureOf_describes pos few few', fun e mem => Signature.content_word pos few' mem⟩
    serves made clear readable applies

section Fresh
variable {plan : OfflinePlan} {bytes : Bytes} {id : UInt32}

/-- Bytes that nothing is copied for all come into the blob. -/
theorem addOps_inline {ops : List DiffOp} {pos : Nat} (inline : ∀ op ∈ ops, ∃ start len, op = .inlineData start len)
    (tiles : OpsTile pos ops bytes.length) :
    ∃ plan', addOps .portable bytes id plan ops = .ok plan' ∧ plan'.blob = plan.blob ++ bytes.drop pos := by
  induction ops generalizing plan pos with
  | nil =>
      have end_ : pos = bytes.length := tiles
      exact ⟨plan, rfl, by rw [end_, List.drop_length, List.append_nil]⟩
  | cons op rest ih =>
      obtain ⟨start, len, rfl⟩ := inline op (.head _)
      obtain ⟨here, tail⟩ := tiles
      have start_ : start = pos := here
      have within : start + len ≤ bytes.length := start_ ▸ tail.le
      have first : addOp .portable bytes id plan (.inlineData start len) = .ok { plan with
          blob := plan.blob ++ (bytes.drop start).take len
          ops := plan.ops ++ [.inlined id (UInt64.ofNat start) (UInt64.ofNat len) (UInt64.ofNat plan.blob.length)] } :=
        if_pos within
      obtain ⟨plan', later, blob⟩ := ih (fun op mem => inline op (.tail _ mem)) tail
      refine ⟨plan', ?_, ?_⟩
      · rw [addOps, first, Outcome.ok_bind]
        exact later
      · subst start_
        have split : (bytes.drop start).take len ++ bytes.drop (start + len) = bytes.drop start := by
          rw [← List.drop_drop, List.take_append_drop]
        rw [← split, ← List.append_assoc]
        exact blob

/-- Operations that tile an entry pass the checks. -/
theorem checkOps_tiled {entry : PlanEntry} (known : plan.entry? id = some entry) {ops : List PlanOp} {pos stop : Nat}
    {cursor : OpCursor} (mine : ∀ op ∈ ops, op.newEntryId = id) (sources : ∀ op ∈ ops, plan.checkSource op = .ok ())
    (tiles : Tiles pos ops stop) (reached : (cursor id).toNat = pos) (room : stop ≤ entry.size.toNat) :
    ∃ cursor', plan.checkOps cursor ops = .ok cursor' ∧ (cursor' id).toNat = stop := by
  induction ops generalizing pos cursor with
  | nil => exact ⟨cursor, rfl, reached.trans tiles⟩
  | cons op rest ih =>
      obtain ⟨start, tail⟩ := tiles
      have total := tail.total
      have size := entry.size.toNat_lt
      have sum : (cursor id + op.len).toNat = pos + op.len.toNat := by
        rw [UInt64.toNat_add, reached, Nat.mod_eq_of_lt (by omega)]
      have first : plan.checkOp cursor op =
          .ok fun other => if other = id then cursor id + op.len else cursor other := by
        have here : op.newOffset = cursor id := UInt64.toNat_inj.mp (start.trans reached.symm)
        have fits : ¬ cursor id + op.len > entry.size := by
          intro above
          have := UInt64.lt_iff_toNat_lt.mp above
          omega
        rw [checkOp, sources op (.head _), mine op (.head _), known]
        dsimp only [bind, Except.bind]
        rw [if_neg (not_not_intro here), if_neg fits]
      have moved : ((fun other => if other = id then cursor id + op.len else cursor other : OpCursor) id).toNat =
          pos + op.len.toNat := (congrArg UInt64.toNat (if_pos rfl)).trans sum
      obtain ⟨cursor', later, last⟩ := @ih (pos + op.len.toNat) (fun other => if other = id then cursor id + op.len else cursor other)
        (fun op mem => mine op (.tail _ mem)) (fun op mem => sources op (.tail _ mem)) tail moved
      refine ⟨cursor', ?_, last⟩
      rw [checkOps, first]
      exact later

/-- The signature of an old build without entries. -/
def bareSig : CavsSignature := Signature.signatureOf numberHash .singleArtifact 1024 "fixed" "v1" []

/-- New bytes without an old build get a plan that holds them all. -/
theorem build_fresh {content : Bytes} (sized : content.length < 2 ^ 64) :
    ∃ plan, build numberHash bareSig .portable (.file [97] content sized) = .ok plan ∧ plan.blob = content ∧
      plan.ShortTexts := by
  have describes : Signature.Describes numberHash [] bareSig :=
    Signature.signatureOf_describes (by decide) (by decide) (by decide)
  obtain ⟨diff, made, sound⟩ := @Signature.diffBytes_spec numberHash [] bareSig content none describes fun _ mem => by cases mem
  have inline : ∀ op ∈ diff.ops, ∃ start len, op = .inlineData start len := by
    intro op mem
    cases op with
    | inlineData start len => exact ⟨start, len, rfl⟩
    | copyOldRange =>
        obtain ⟨e, there, -⟩ := sound.grounded _ mem
        cases there
  generalize named : String.ofList (lossy [97]) = name
  have short : (strBytes name).length ≤ 2 ^ 16 := by
    rw [← named]
    decide +kernel
  obtain ⟨plan, run, blob⟩ := @addOps_inline (emptyPlan bareSig .portable .artifact name) content 0 diff.ops 0 inline sound.tiles
  obtain ⟨ops, more, added, tiles⟩ := @addOps_added [] .portable _ _ content 0 diff.ops 0 (fun _ mem => by cases mem) sized sound.grounded sound.tiles run
  obtain ⟨ops', blob', rfl⟩ := addOps_keeps run
  have whole : blob' = content := blob
  have listed : ops' = ops := congrArg OfflinePlan.ops added.grown
  subst whole listed
  let entry := planEntry numberHash 0 (name, .file blob' false)
  let plan := { emptyPlan bareSig .portable .artifact name with
    ops := ops'
    blob := blob'
    newEntries := [entry]
    newSize := 0 + UInt64.ofNat blob'.length }
  have size : (UInt64.ofNat blob'.length).toNat = blob'.length := UInt64.toNat_ofNat_of_lt' sized
  have valid : plan.validate = .ok () := by
    have sources : ∀ op ∈ ops', plan.checkSource op = .ok () := by
      intro op mem
      cases op with
      | copyOld =>
          obtain ⟨e, there, -⟩ := added.right sized _ mem trivial
          cases there
      | inlined newEntry newOffset len blobOffset =>
          obtain ⟨within, -⟩ := added.right sized _ mem rfl
          exact if_neg fun bad => bad.2 ⟨Nat.lt_of_le_of_lt within sized, within⟩
    obtain ⟨cursor, checked, reached⟩ := @checkOps_tiled plan 0 entry rfl ops' 0 blob'.length (fun _ => 0) added.mine sources
      tiles rfl (Nat.le_of_eq size.symm)
    have covered : plan.checkCovered cursor = .ok () := by
      have full : cursor entry.entryId = entry.size := UInt64.toNat_inj.mp (reached.trans size.symm)
      have none : plan.newEntries.find? (fun e => e.kind = .file ∧ cursor e.entryId ≠ e.size) = none := by
        rw [List.find?_eq_none]
        intro e mem
        rw [List.mem_singleton.mp mem, decide_eq_true_eq]
        exact fun bad => bad.2 full
      rw [checkCovered, none]
    have news : checkNewEntries plan.mode [] plan.newEntries = .ok () := by
      simp [plan, entry, checkNewEntries, planEntry, emptyPlan]
    unfold validate
    rw [news]
    show (plan.checkOps (fun _ => 0) ops' >>= fun cursor => plan.checkCovered cursor) = .ok ()
    rw [checked]
    exact covered
  have artifact : (emptyPlan bareSig .portable .artifact name).mode ≠ .directory := fun bad => by cases bad
  have file : addNodes numberHash bareSig .portable (emptyPlan bareSig .portable .artifact name)
      [(name, .file blob' false)] = .ok plan := by
    have one : addNode numberHash bareSig .portable (emptyPlan bareSig .portable .artifact name) (name, .file blob' false) =
        .ok plan := by
      dsimp only [addNode, addFile]
      rw [if_neg artifact, made]
      dsimp only
      rw [show (emptyPlan bareSig .portable .artifact name).newEntries.length = 0 from rfl]
      refine (congrArg (· >>= _) run).trans ?_
      rfl
    rw [addNodes, if_neg fun bad => artifact bad.1, one]
    rfl
  have oldLabel : (strBytes bareSig.sourceLabel).length ≤ 2 ^ 16 := by decide +kernel
  have none : (strBytes "").length ≤ 2 ^ 16 := Nat.zero_le _
  refine ⟨plan, ?_, rfl, ⟨oldLabel, short, List.forall_mem_nil _, ?_, List.forall_mem_nil _⟩⟩
  · show (addNodes numberHash bareSig .portable (emptyPlan bareSig .portable .artifact (String.ofList (lossy [97])))
      [(String.ofList (lossy [97]), .file blob' false)] >>= fun plan => Outcome.ofExcept plan.validate >>= fun _ => pure plan) =
        .ok plan
    rw [named, file, Outcome.ok_bind, valid]
    rfl
  · intro e mem
    rw [List.mem_singleton.mp mem]
    exact ⟨short, none⟩

/-- A compressor that stores. -/
def storedBlob : BlobCompressor countingEnv where
  compress _ b := b
  lossless _ _ _ small := if_pos small
  bounded _ _ small := Nat.lt_of_le_of_lt small (by decide)

/-- More fresh bytes than the decoder takes, in a plan that is valid and has short texts. -/
theorem not_plan_codec :
    (¬ ∀ (env : Env) (zstd : BlobCompressor env) (level : Int) (sig : CavsSignature) (kind : PlanKind) (source : NewBuild)
      (plan : OfflinePlan), build env.hashChunk sig kind source = .ok plan →
        decode env (encode zstd level plan) = .ok plan) ∧
    ¬ ∀ (env : Env) (zstd : BlobCompressor env) (level : Int) (plan : OfflinePlan), plan.validate = .ok () →
      plan.ShortTexts → plan.Named → decode env (encode zstd level plan) = .ok plan := by
  obtain ⟨n, past⟩ : ∃ n, n = maxBlobRaw + 1 := ⟨_, rfl⟩
  have cap : maxBlobRaw = 2 ^ 34 := rfl
  have length : (List.replicate n (0 : UInt8)).length = n := List.length_replicate
  obtain ⟨plan, made, blob, short⟩ := @build_fresh (.replicate n 0) (by rw [length]; omega)
  have unread : decode countingEnv (encode storedBlob 19 plan) ≠ .ok plan := by
    intro read
    have small := (decode_read read).2
    rw [blob, length] at small
    omega
  exact ⟨fun all => unread (all countingEnv storedBlob 19 bareSig .portable _ plan made),
    fun all => unread (all countingEnv storedBlob 19 plan (build_ok made).1 short (build_named made))⟩

end Fresh

section Patched

def sevens (n : Nat) : Bytes := .replicate n 7

theorem sevens_sized (n : Nat) (small : n < 2 ^ 64) : (sevens n).length < 2 ^ 64 := by
  rwa [sevens, List.length_replicate]

/-- A block that is copied and a byte that is not. -/
def patchedPlan : OfflinePlan where
  kind := .portable
  mode := .artifact
  blockSize := 1024
  oldLabel := "v1"
  oldSize := 1024
  oldBlake3 := some (numberHash (sevens 1024))
  newLabel := "a"
  newSize := 1025
  oldEntries := [⟨0, "a", 1024⟩]
  newEntries := [⟨0, "a", .file, 1025, false, none, some (numberHash (sevens 1025))⟩]
  deleted := []
  ops := [.copyOld 0 0 0 0 1024, .inlined 0 1024 1 0]
  blob := [7]

def patchedBuild : NewBuild := .file [97] (sevens 1025) (sevens_sized 1025 (by decide))

def oldCalls : List BuilderCall := [.beginEntry "a" false none, .append (sevens 1024)]

def oldBuilder : SignatureBuilder :=
  ((SignatureBuilder.start .singleArtifact 1024 "fixed").beginEntry numberHash "a" false none).append numberHash (sevens 1024)

theorem oldBuilder_ran : (SignatureBuilder.start .singleArtifact 1024 "fixed").calls numberHash oldCalls = some oldBuilder :=
  rfl

theorem patchedPlan_built :
    build numberHash (oldBuilder.finish numberHash "v1") .portable patchedBuild = .ok patchedPlan := by
  decide +kernel

/-- A file of sevens. -/
def sevenFile : OldSource where
  readRange _ _ n := .ok ⟨sevens n, List.length_replicate⟩

theorem plan_codec_patched : ∃ read, decode countingEnv (encode storedBlob 19 patchedPlan) = .ok read ∧
    read.Delivers sevenFile patchedBuild := by
  have piece : ∀ p ∈ Signature.cut 1024 (sevens 1024), p = sevens 1024 := by decide +kernel
  have size : (clamped 1024).toNat = 1024 := rfl
  have readable : patchedPlan.Readable := by
    refine ⟨⟨by decide +kernel, by decide +kernel, ?_, ?_, nofun⟩, by decide, by decide, by decide, by decide, by decide⟩
    · intro e mem
      rw [List.mem_singleton.mp mem]
      decide +kernel
    · intro e mem
      rw [List.mem_singleton.mp mem]
      decide +kernel
  refine (plan_codec countingEnv storedBlob 19).2.2 .singleArtifact 1024 "fixed" "v1" oldCalls oldBuilder oldBuilder_ran (by decide)
    (by decide +kernel) .portable patchedBuild patchedPlan patchedPlan_built ?_ readable ?_ sevenFile ?_
  · intro x mem e mem' p part q room _
    obtain rfl := List.mem_singleton.mp mem
    obtain rfl := List.mem_singleton.mp mem'
    have long : q + 1024 ≤ 1025 := room.trans (Nat.le_of_eq List.length_replicate)
    rw [size] at part ⊢
    rw [piece p part]
    show sevens 1024 = ((sevens 1025).drop q).take 1024
    have fits : min 1024 (1025 - q) = 1024 := by omega
    rw [sevens, sevens, List.drop_replicate, List.take_replicate, fits]
  · intro op mem
    cases op with
    | copyOld => trivial
    | inlined => rfl
  · intro id offset n e there within
    have only : e.content = sevens 1024 := by
      have mem := List.mem_singleton.mp (List.mem_of_getElem? there : e ∈ [_])
      rw [mem]
      rfl
    refine ⟨_, rfl, ?_⟩
    have long : offset.toNat + n ≤ 1024 := within.trans (Nat.le_of_eq ((congrArg List.length only).trans List.length_replicate))
    have fits : min n (1024 - offset.toNat) = n := by omega
    rw [only]
    show sevens n = ((sevens 1024).drop offset.toNat).take n
    rw [sevens, sevens, List.drop_replicate, List.take_replicate, fits]

end Patched

end OfflinePlan
end Cavs
