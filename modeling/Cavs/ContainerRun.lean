import Cavs.Gate
import Cavs.KeyedList
import Mathlib.Data.List.Perm.Subperm
import Mathlib.Data.List.Range

/-!
# The round trip of a container

Every call on a writer keeps the chunk table, the data section and what the calls returned
in step. When the container is finished, each index a call returned leads to the payload the
call was given, if the table lengths fit the widths they are written with.
-/
namespace Cavs
open FileProg (Bytes)
open ByteScan
open Outcome (ok_bind ok_of_bindO pure_eq)
open List (append_assoc append_nil filterMap_append length_append length_map map_map mem_append mem_append_left
  mem_cons mem_cons_of_mem mem_cons_self mem_map mem_singleton)

section Calls
variable (env : ContainerEnv)

/-- The calls on a writer before it is finished. -/
inductive WriterCall where
  | setZstdLevel (level : Int)
  | setBg4 (enabled : Bool)
  | signWith (secret : ChunkHash)
  | addChunk (raw : Bytes)
  | addChunksParallel (data : Bytes) (ranges : List (Nat × Nat))
  | addTrack (track : TrackRecord)
  | addSegment (segment : SegmentRecord)
  | pinDict (index : UInt32)
  | setMeta (key value : String)

/-- The indices that calls returned, with the payloads they were returned for. -/
abbrev ChunkLog := List (UInt32 × Bytes)

namespace ContainerWriter

def step (w : ContainerWriter) : WriterCall → FormatResult (ContainerWriter × ChunkLog)
  | .setZstdLevel level => return ({ w with zstdLevel := level }, [])
  | .setBg4 enabled => return ({ w with bg4 := enabled }, [])
  | .signWith secret => return ({ w with signer := some secret }, [])
  | .addChunk raw => do
      let (index, w) ← w.addChunk env raw
      return (w, [(index, raw)])
  | .addChunksParallel data ranges => do
      let raws ← slices data ranges
      let (indices, w) ← w.addChunksParallel env data ranges
      return (w, indices.zip raws)
  | .addTrack track => do return (← w.addTrack track, [])
  | .addSegment segment => do return (← w.addSegment segment, [])
  | .pinDict index => do return (← w.pinDict index, [])
  | .setMeta key value => return (w.setMeta key value, [])

def run (w : ContainerWriter) : List WriterCall → FormatResult (ContainerWriter × ChunkLog)
  | [] => return (w, [])
  | call :: rest => do
      let (w, first) ← w.step env call
      let (w, later) ← run w rest
      return (w, first ++ later)

end ContainerWriter

def tracksOf (calls : List WriterCall) : List TrackRecord :=
  calls.filterMap fun | .addTrack track => some track | _ => none

def segmentsOf (calls : List WriterCall) : List SegmentRecord :=
  calls.filterMap fun | .addSegment segment => some segment | _ => none

def metaOf (calls : List WriterCall) : List (String × String) :=
  calls.filterMap fun | .setMeta key value => some (key, value) | _ => none

def pinsOf (calls : List WriterCall) : List UInt32 :=
  calls.filterMap fun | .pinDict index => some index | _ => none

def secretsOf (calls : List WriterCall) : List ChunkHash :=
  calls.filterMap fun | .signWith secret => some secret | _ => none

def pin (dict : List UInt32) (index : UInt32) : List UInt32 := if index ∈ dict then dict else dict ++ [index]

/-- Pinned chunks, each where it was pinned first. -/
def pinnedOf (calls : List WriterCall) : List UInt32 := (pinsOf calls).foldl pin []

/-- The secret of the last call that set one. -/
def signerOf (calls : List WriterCall) : Option ChunkHash := (secretsOf calls).getLast?

/-- The payloads that calls returned these indices for. -/
def Payloads (log : ChunkLog) (indices : List UInt32) (payloads : List Bytes) : Prop :=
  List.Forall₂ (fun index payload => (index, payload) ∈ log) indices payloads

/-- A key that is kept for the signature. -/
def isSignatureKey (key : String) : Bool := (strBytes "sig.").isPrefixOf (strBytes key)

/-- What a reader finds in a file that the calls wrote. -/
structure RoundTrip (calls : List WriterCall) (log : ChunkLog) (r : Reader) : Prop where
  tracks : r.tracks = tracksOf calls
  segments : r.segments = segmentsOf calls
  dict : r.dict = pinnedOf calls
  metaPairs : ∃ extra, r.metaPairs = metaOf calls ++ extra ∧
    extra.map Prod.fst = if (signerOf calls).isSome then ["sig.ed25519", "sig.pubkey"] else []
  segmentBytes : ∀ s ∈ segmentsOf calls, ∃ payloads, Payloads log s.chunks payloads ∧
    r.segmentBytes env s = .ok payloads.flatten
  trackInitBytes : ∀ id t, (tracksOf calls).find? (fun t => t.trackId = id) = some t →
    ∃ payloads, Payloads log t.initChunks payloads ∧ r.trackInitBytes env id = .ok payloads.flatten
  exact : ∀ index payload payload', (index, payload) ∈ log → (index, payload') ∈ log → payload = payload'
  verify : ∃ report, r.verify env = .ok report
  signature : r.verifySignature env = .ok (match signerOf calls with
    | some secret => .valid (env.publicKey secret)
    | none => .unsigned)

/-- Every table and every list of chunks has fewer than `2 ^ 32` entries. -/
structure ContainerWriter.CountsFit (w : ContainerWriter) : Prop where
  tracks : w.tracks.length < 2 ^ 32 ∧ ∀ t ∈ w.tracks, t.initChunks.length < 2 ^ 32
  segments : w.segments.length < 2 ^ 32 ∧ ∀ s ∈ w.segments, s.chunks.length < 2 ^ 32
  chunks : w.chunks.length < 2 ^ 32
  metaPairs : (w.metaPairs ++ w.signaturePairs env).length < 2 ^ 32

end Calls

section Forms
variable {env : ContainerEnv} {raw : Bytes} {form : Option (Bytes × UInt32)} {level : Int} {z : Bytes}
  {w : ContainerWriter}

/-- A stored form that can be turned back into the payload. -/
def GoodForm (env : ContainerEnv) (raw : Bytes) (form : Option (Bytes × UInt32)) : Prop :=
  ∀ z flags, form = some (z, flags) → z.length ≤ raw.length ∧
    (raw.length ≤ maxChunkRaw → unpackStored env flags (UInt32.ofNat raw.length) z = .ok raw)

theorem goodForm_none : GoodForm env raw none := by
  intro z flags h
  cases h

theorem lenRaw_toNat (small : raw.length ≤ maxChunkRaw) : (UInt32.ofNat raw.length).toNat = raw.length := by
  apply ofNat_toNat
  rw [maxChunkRaw] at small
  omega

theorem pays_le {n m : Nat} (pays : compressionPays n m = true) : n ≤ m := by
  have less := of_decide_eq_true pays
  omega

theorem unpackStored_raw {lenRaw : UInt32} : unpackStored env 0 lenRaw raw = .ok raw := by
  rw [unpackStored, if_neg (by decide)]
  rfl

theorem goodForm_zstd (packed : env.compress level raw = .ok z)
    (pays : compressionPays z.length raw.length = true) : GoodForm env raw (some (z, chunkFlagZstd)) := by
  intro z' flags same
  cases same
  refine ⟨pays_le pays, fun small => ?_⟩
  have unpacked := env.decompress_compress level raw z (UInt32.ofNat raw.length).toNat packed
    (lenRaw_toNat small).ge
  rw [unpackStored, if_pos (by decide), unpacked]
  rfl

theorem goodForm_bg4 (packed : env.compress level (bg4Group raw) = .ok z)
    (pays : compressionPays z.length raw.length = true) :
    GoodForm env raw (some (z, chunkFlagZstd ||| chunkFlagBg4)) := by
  intro z' flags same
  cases same
  refine ⟨pays_le pays, fun small => ?_⟩
  have unpacked := env.decompress_compress level (bg4Group raw) z (UInt32.ofNat raw.length).toNat packed
    (by rw [bg4Group_length, lenRaw_toNat small])
  have ungrouped : (pure (bg4Ungroup (bg4Group raw)) : Except String Bytes) = .ok raw := by
    rw [bg4Ungroup_bg4Group]
    rfl
  rw [unpackStored, if_pos (by decide), unpacked]
  exact ungrouped

theorem zstdCompress_ok (h : zstdCompress env level raw = .ok z) :
    env.compress level raw = .ok z := by
  rw [zstdCompress] at h
  cases packed : env.compress level raw with
  | error e => rw [packed] at h; cases h
  | ok z' => rw [packed] at h; cases h; rfl

theorem prepareStored_good {tryBg4 : Bool} (h : prepareStored env raw level tryBg4 = .ok form) :
    GoodForm env raw form := by
  obtain ⟨plain, first, h⟩ := ok_of_bindO h
  have packed := zstdCompress_ok first
  dsimp only at h
  split at h
  · cases h
    split
    · exact goodForm_zstd packed ‹_›
    · exact goodForm_none
  · obtain ⟨bg, second, h⟩ := ok_of_bindO h
    have packed' := zstdCompress_ok second
    split at h
    · cases h
      exact goodForm_none
    · rename_i some_pays
      split at h
      · rename_i smaller
        cases h
        rw [Bool.and_eq_true] at smaller
        exact goodForm_bg4 packed' smaller.1
      · rename_i notSmaller
        cases h
        refine goodForm_zstd packed ?_
        simp only [Bool.and_eq_true, Bool.or_eq_true, Bool.not_eq_true', not_and, not_or] at some_pays notSmaller
        by_contra none_
        rw [Bool.not_eq_true] at none_
        cases bgPays : compressionPays bg.length raw.length with
        | false => exact some_pays none_ bgPays
        | true => exact (notSmaller bgPays).1 none_

theorem formOf_good (h : w.formOf env raw = .ok form) : GoodForm env raw form := by
  rw [ContainerWriter.formOf] at h
  split at h
  · exact prepareStored_good h
  · cases h
    exact goodForm_none

theorem prepareAll_good {seen : List ChunkHash} {raws : List Bytes} {forms : List (Option (Bytes × UInt32))}
    (h : w.prepareAll env seen raws = .ok forms) :
    List.Forall₂ (GoodForm env) raws forms := by
  induction raws generalizing seen forms with
  | nil =>
      cases h
      exact .nil
  | cons raw rest ih =>
      rw [ContainerWriter.prepareAll] at h
      obtain ⟨form, first, h⟩ := ok_of_bindO h
      obtain ⟨others, more, h⟩ := ok_of_bindO h
      cases h
      refine .cons ?_ (ih more)
      split at first
      · exact formOf_good first
      · cases first
        exact goodForm_none

end Forms

section Invariant
variable {env : ContainerEnv} {w : ContainerWriter} {log : ChunkLog} {raw : Bytes}

/-- The stored form of a payload is in the data section where its record says. -/
def HoldsChunks (env : ContainerEnv) (data : Bytes) (c : ChunkRecord) (raw : Bytes) : Prop :=
  env.hashChunk raw = c.hash ∧ raw.length ≤ maxChunkRaw ∧ c.lenRaw = UInt32.ofNat raw.length ∧
    ∃ front stored back, data = front ++ (stored ++ back) ∧ front.length = c.dataOffset ∧
      stored.length = c.lenStored.toNat ∧ unpackStored env c.flags c.lenRaw stored = .ok raw

theorem HoldsChunks.append {data : Bytes} {c : ChunkRecord} (h : HoldsChunks env data c raw) (more : Bytes) :
    HoldsChunks env (data ++ more) c raw := by
  obtain ⟨hash, small, lenRaw, front, stored, back, rfl, start, long, unpacked⟩ := h
  refine ⟨hash, small, lenRaw, front, stored, back ++ more, ?_, start, long, unpacked⟩
  simp only [append_assoc]

/-- The chunk table, the data section and what the calls returned are in step. -/
structure WriterInv (env : ContainerEnv) (w : ContainerWriter) (log : ChunkLog) : Prop where
  cas : w.cas = w.chunks.mapIdx fun k c => (c.hash, UInt32.ofNat k)
  kept : ∀ (k : Nat) c, w.chunks[k]? = some c → ∃ raw, HoldsChunks env w.data c raw ∧ (UInt32.ofNat k, raw) ∈ log
  logged : ∀ i raw, (i, raw) ∈ log → ∃ (k : Nat) (c : ChunkRecord), w.chunks[k]? = some c ∧ i = UInt32.ofNat k ∧
    c.hash = env.hashChunk raw
  tracks : ∀ t ∈ w.tracks, ∀ i ∈ t.initChunks, i.toNat < w.chunks.length
  segments : ∀ s ∈ w.segments, ∀ i ∈ s.chunks, i.toNat < w.chunks.length
  dict : w.dict.Nodup ∧ ∀ i ∈ w.dict, i.toNat < w.chunks.length

theorem create_inv (uuid : Uuid) (timescale : UInt32) (compress : Bool) :
    WriterInv env (ContainerWriter.create uuid timescale compress) [] := by
  constructor
  · rfl
  · intro k c found
    cases found
  · intro i raw mem
    cases mem
  · intro t mem
    cases mem
  · intro s mem
    cases mem
  · exact ⟨List.nodup_nil, fun i mem => by cases mem⟩

/-- A payload that is known is not stored again. -/
theorem WriterInv.known (h : WriterInv env w log) {index : UInt32}
    (found : w.cas.lookup (env.hashChunk raw) = some index) :
    WriterInv env (w.count raw) (log ++ [(index, raw)]) := by
  refine ⟨h.cas, fun k c there => ?_, fun i raw' mem => ?_, h.tracks, h.segments, h.dict⟩
  · obtain ⟨raw', holds, logged⟩ := h.kept k c there
    exact ⟨raw', holds, mem_append_left _ logged⟩
  · rcases mem_append.mp mem with old | new
    · exact h.logged i raw' old
    · obtain ⟨rfl, rfl⟩ := Prod.mk.inj (mem_singleton.mp new)
      have listed := KeyedList.mem_of_lookup found
      rw [h.cas, List.mem_mapIdx] at listed
      obtain ⟨k, within, same⟩ := listed
      obtain ⟨hash, rfl⟩ := Prod.mk.inj same
      exact ⟨k, w.chunks[k], List.getElem?_eq_getElem within, rfl, hash⟩

/-- A new payload gets the next index. -/
theorem WriterInv.fresh (h : WriterInv env w log) (small : raw.length ≤ maxChunkRaw)
    {form : Option (Bytes × UInt32)} (good : GoodForm env raw form) {w' : ContainerWriter}
    (grown : w' = { w.count raw with cas := w.cas ++ [(env.hashChunk raw, UInt32.ofNat w.chunks.length)] }) :
    WriterInv env (w'.store (env.hashChunk raw) raw form) (log ++ [(UInt32.ofNat w.chunks.length, raw)]) := by
  subst grown
  set stored := (form.getD (raw, 0)).1 with hstored
  set flags := (form.getD (raw, 0)).2 with hflags
  have unpacked : stored.length ≤ raw.length ∧
      unpackStored env flags (UInt32.ofNat raw.length) stored = .ok raw := by
    cases form with
    | none => exact ⟨Nat.le_refl _, unpackStored_raw⟩
    | some p =>
        obtain ⟨short, back⟩ := good p.1 p.2 rfl
        exact ⟨short, back small⟩
  have long : (UInt32.ofNat stored.length).toNat = stored.length := by
    apply ofNat_toNat
    rw [maxChunkRaw] at small
    omega
  have data : (ContainerWriter.store { w.count raw with
      cas := w.cas ++ [(env.hashChunk raw, UInt32.ofNat w.chunks.length)] } (env.hashChunk raw) raw form).data =
      w.data ++ stored := rfl
  have chunks : (ContainerWriter.store { w.count raw with
      cas := w.cas ++ [(env.hashChunk raw, UInt32.ofNat w.chunks.length)] } (env.hashChunk raw) raw form).chunks =
      w.chunks ++ [⟨env.hashChunk raw, w.data.length, UInt32.ofNat raw.length, UInt32.ofNat stored.length, flags⟩] := rfl
  constructor
  · rw [chunks, List.mapIdx_append, ← h.cas, List.mapIdx_cons, List.mapIdx_nil, Nat.zero_add]
    rfl
  · rw [chunks, data]
    intro k c there
    by_cases old : k < w.chunks.length
    · rw [List.getElem?_append_left old] at there
      obtain ⟨raw', holds, logged⟩ := h.kept k c there
      exact ⟨raw', holds.append stored, mem_append_left _ logged⟩
    · rw [List.getElem?_append_right (Nat.le_of_not_lt old), List.getElem?_singleton] at there
      split at there
      · rename_i last
        cases there
        obtain rfl : k = w.chunks.length := by omega
        refine ⟨raw, ⟨rfl, small, rfl, w.data, stored, [], ?_, rfl, long.symm, unpacked.2⟩, ?_⟩
        · rw [append_nil]
        · exact List.mem_append_right _ (mem_singleton.mpr rfl)
      · cases there
  · rw [chunks]
    intro i raw' mem
    rcases mem_append.mp mem with old | new
    · obtain ⟨k, c, there, index, hash⟩ := h.logged i raw' old
      refine ⟨k, c, ?_, index, hash⟩
      rw [List.getElem?_append_left (List.getElem?_eq_some_iff.mp there).1]
      exact there
    · obtain ⟨rfl, rfl⟩ := Prod.mk.inj (mem_singleton.mp new)
      exact ⟨w.chunks.length, _, List.getElem?_concat_length, rfl, rfl⟩
  · rw [chunks]
    intro t mem i listed
    rw [length_append]
    exact Nat.lt_add_right _ (h.tracks t mem i listed)
  · rw [chunks]
    intro s mem i listed
    rw [length_append]
    exact Nat.lt_add_right _ (h.segments s mem i listed)
  · rw [chunks]
    refine ⟨h.dict.1, fun i listed => ?_⟩
    rw [length_append]
    exact Nat.lt_add_right _ (h.dict.2 i listed)

theorem WriterInv.storeAll (h : WriterInv env w log) {raws : List Bytes} {forms : List (Option (Bytes × UInt32))}
    (good : List.Forall₂ (GoodForm env) raws forms) (small : ∀ raw ∈ raws, raw.length ≤ maxChunkRaw) :
    (w.storeAll env (raws.zip forms)).1.length = raws.length ∧
      WriterInv env (w.storeAll env (raws.zip forms)).2
        (log ++ ((w.storeAll env (raws.zip forms)).1.zip raws)) := by
  induction good generalizing w log with
  | nil =>
      rw [List.zip_nil_left, ContainerWriter.storeAll, List.zip_nil_left, append_nil]
      exact ⟨rfl, h⟩
  | @cons raw form raws forms first more ih =>
      have small' : ∀ raw ∈ raws, raw.length ≤ maxChunkRaw := fun x mem => small x (mem_cons_of_mem _ mem)
      rw [List.zip_cons_cons, ContainerWriter.storeAll, ContainerWriter.intern]
      cases found : (w.count raw).cas.lookup (env.hashChunk raw) with
      | some index =>
          obtain ⟨lengths, inv⟩ := ih (h.known found) small'
          rw [append_assoc] at inv
          exact ⟨congrArg (· + 1) lengths, inv⟩
      | none =>
          obtain ⟨lengths, inv⟩ := ih (h.fresh (small raw mem_cons_self) first rfl) small'
          rw [append_assoc] at inv
          exact ⟨congrArg (· + 1) lengths, inv⟩

end Invariant

section Run
variable {env : ContainerEnv} {w w' : ContainerWriter} {log first later : ChunkLog} {call : WriterCall}
  {calls : List WriterCall} {data : Bytes} {ranges : List (Nat × Nat)} {raws : List Bytes}
  {indices : List UInt32}

/-- What the calls add to the tables of a writer, and what they leave alone. -/
structure Grown (w : ContainerWriter) (calls : List WriterCall) (w' : ContainerWriter) : Prop where
  tracks : w'.tracks = w.tracks ++ tracksOf calls
  segments : w'.segments = w.segments ++ segmentsOf calls
  metaPairs : w'.metaPairs = w.metaPairs ++ metaOf calls
  dict : w'.dict = (pinsOf calls).foldl pin w.dict
  signer : w'.signer = (secretsOf calls).getLast?.or w.signer
  compression : w'.compression = w.compression
  timescale : w'.timescale = w.timescale
  assetUuid : w'.assetUuid = w.assetUuid

theorem Grown.refl (w : ContainerWriter) : Grown w [] w := by
  constructor <;> simp [tracksOf, segmentsOf, metaOf, pinsOf, secretsOf]

theorem Grown.trans {w'' : ContainerWriter} {calls' : List WriterCall} (h : Grown w calls w')
    (h' : Grown w' calls' w'') : Grown w (calls ++ calls') w'' := by
  constructor
  · rw [h'.tracks, h.tracks, tracksOf, tracksOf, tracksOf, filterMap_append, append_assoc]
  · rw [h'.segments, h.segments, segmentsOf, segmentsOf, segmentsOf, filterMap_append, append_assoc]
  · rw [h'.metaPairs, h.metaPairs, metaOf, metaOf, metaOf, filterMap_append, append_assoc]
  · rw [h'.dict, h.dict, pinsOf, pinsOf, pinsOf, filterMap_append, List.foldl_append]
  · rw [h'.signer, h.signer, secretsOf, secretsOf, secretsOf, filterMap_append, List.getLast?_append,
      Option.or_assoc]
  · rw [h'.compression, h.compression]
  · rw [h'.timescale, h.timescale]
  · rw [h'.assetUuid, h.assetUuid]

/-- A writer that differs in its chunks only. -/
structure SameTables (w w' : ContainerWriter) : Prop where
  tracks : w'.tracks = w.tracks
  segments : w'.segments = w.segments
  metaPairs : w'.metaPairs = w.metaPairs
  dict : w'.dict = w.dict
  signer : w'.signer = w.signer
  compression : w'.compression = w.compression
  timescale : w'.timescale = w.timescale
  assetUuid : w'.assetUuid = w.assetUuid

variable (env w) in
theorem storeAll_same (l : List (Bytes × Option (Bytes × UInt32))) : SameTables w (w.storeAll env l).2 := by
  induction l generalizing w with
  | nil => constructor <;> rfl
  | cons p rest ih =>
      obtain ⟨raw, form⟩ := p
      rw [ContainerWriter.storeAll, ContainerWriter.intern]
      cases (w.count raw).cas.lookup (env.hashChunk raw) with
      | some index =>
          obtain ⟨h₁, h₂, h₃, h₄, h₅, h₆, h₇, h₈⟩ := ih (w.count raw)
          exact ⟨h₁, h₂, h₃, h₄, h₅, h₆, h₇, h₈⟩
      | none =>
          obtain ⟨h₁, h₂, h₃, h₄, h₅, h₆, h₇, h₈⟩ := ih (ContainerWriter.store
            { w.count raw with cas := (w.count raw).cas ++ [(env.hashChunk raw, UInt32.ofNat (w.count raw).chunks.length)] }
            (env.hashChunk raw) raw form)
          exact ⟨h₁, h₂, h₃, h₄, h₅, h₆, h₇, h₈⟩

variable (env w) in
theorem storeAll_length (l : List (Bytes × Option (Bytes × UInt32))) : (w.storeAll env l).1.length = l.length := by
  induction l generalizing w with
  | nil => rfl
  | cons p rest ih => exact congrArg (· + 1) (ih _)

theorem checkChunkIndices_ok {l : List UInt32} (h : w.checkChunkIndices l = .ok ()) :
    ∀ i ∈ l, i.toNat < w.chunks.length := by
  induction l with
  | nil =>
      intro i mem
      cases mem
  | cons index rest ih =>
      rw [ContainerWriter.checkChunkIndices] at h
      obtain ⟨u, here, h⟩ := ok_of_bindO h
      rw [ContainerWriter.checkChunkIndex] at here
      split at here
      · intro i mem
        rcases mem_cons.mp mem with rfl | more
        · assumption
        · exact ih h i more
      · cases here

theorem slices_small (_sliced : ContainerWriter.slices data ranges = .ok raws)
    (lengths : indices.length = raws.length) (small : ∀ p ∈ indices.zip raws, p.2.length ≤ maxChunkRaw) :
    ∀ raw ∈ raws, raw.length ≤ maxChunkRaw := by
  intro raw mem
  have all : (indices.zip raws).map Prod.snd = raws := List.map_snd_zip lengths.ge
  rw [← all] at mem
  obtain ⟨p, there, rfl⟩ := mem_map.mp mem
  exact small p there

theorem addChunksParallel_length (sliced : ContainerWriter.slices data ranges = .ok raws)
    (added : w.addChunksParallel env data ranges = .ok (indices, w')) : indices.length = raws.length := by
  rw [ContainerWriter.addChunksParallel, sliced, ok_bind] at added
  obtain ⟨forms, prepared, stored⟩ := ok_of_bindO added
  rw [pure_eq, Outcome.ok.injEq] at stored
  have zipped := storeAll_length env w (raws.zip forms)
  rwa [stored, List.length_zip, ← (prepareAll_good prepared).length_eq, Nat.min_self] at zipped

/-- One call keeps the writer in step and adds to the tables what it says. -/
theorem step_inv (h : WriterInv env w log) (ran : w.step env call = .ok (w', first))
    (small : ∀ p ∈ first, p.2.length ≤ maxChunkRaw) : WriterInv env w' (log ++ first) ∧ Grown w [call] w' := by
  cases call with
  | setZstdLevel _ | setBg4 _ | signWith _ | setMeta _ _ =>
      cases ran
      rw [append_nil]
      refine ⟨⟨h.cas, h.kept, h.logged, h.tracks, h.segments, h.dict⟩, ?_⟩
      constructor <;> simp [tracksOf, segmentsOf, metaOf, pinsOf, secretsOf, ContainerWriter.setMeta]
  | addChunk raw =>
      rw [ContainerWriter.step] at ran
      obtain ⟨⟨index, w₁⟩, added, ran⟩ := ok_of_bindO ran
      cases ran
      have short : raw.length ≤ maxChunkRaw := small _ mem_cons_self
      rw [ContainerWriter.addChunk, ContainerWriter.intern] at added
      cases found : (w.count raw).cas.lookup (env.hashChunk raw) with
      | some known =>
          rw [found] at added
          cases added
          refine ⟨h.known found, ?_⟩
          constructor <;> simp [tracksOf, segmentsOf, metaOf, pinsOf, secretsOf, ContainerWriter.count]
      | none =>
          rw [found] at added
          obtain ⟨form, formed, added⟩ := ok_of_bindO added
          cases added
          refine ⟨h.fresh short (formOf_good formed) rfl, ?_⟩
          constructor <;>
            simp [tracksOf, segmentsOf, metaOf, pinsOf, secretsOf, ContainerWriter.count, ContainerWriter.store]
  | addChunksParallel data ranges =>
      rw [ContainerWriter.step] at ran
      obtain ⟨raws, sliced, ran⟩ := ok_of_bindO ran
      obtain ⟨⟨indices, w₁⟩, added, ran⟩ := ok_of_bindO ran
      cases ran
      have lengths := addChunksParallel_length sliced added
      rw [ContainerWriter.addChunksParallel, sliced, ok_bind] at added
      obtain ⟨forms, prepared, added⟩ := ok_of_bindO added
      have good := prepareAll_good prepared
      have stored : w.storeAll env (raws.zip forms) = (indices, w') := by
        rw [pure_eq, Outcome.ok.injEq] at added
        exact added
      have kept := (h.storeAll good (slices_small sliced lengths small)).2
      have same := storeAll_same env w (raws.zip forms)
      rw [stored] at kept same
      dsimp only at kept same
      refine ⟨kept, ?_⟩
      constructor
      · simp [tracksOf, same.tracks]
      · simp [segmentsOf, same.segments]
      · simp [metaOf, same.metaPairs]
      · simp [pinsOf, same.dict]
      · simp [secretsOf, same.signer]
      · exact same.compression
      · exact same.timescale
      · exact same.assetUuid
  | addTrack track =>
      obtain ⟨w₁, added, ran⟩ := ok_of_bindO ran
      cases ran
      rw [ContainerWriter.addTrack] at added
      obtain ⟨u, checked_, added⟩ := ok_of_bindO added
      have inside := checkChunkIndices_ok checked_
      cases added
      rw [append_nil]
      refine ⟨⟨h.cas, h.kept, h.logged, fun t mem => ?_, h.segments, h.dict⟩, ?_⟩
      · rcases mem_append.mp mem with old | new
        · exact h.tracks t old
        · rw [mem_singleton.mp new]
          exact inside
      · constructor <;> simp [tracksOf, segmentsOf, metaOf, pinsOf, secretsOf]
  | addSegment segment =>
      obtain ⟨w₁, added, ran⟩ := ok_of_bindO ran
      cases ran
      rw [ContainerWriter.addSegment] at added
      obtain ⟨u, checked_, added⟩ := ok_of_bindO added
      have inside := checkChunkIndices_ok checked_
      cases added
      rw [append_nil]
      refine ⟨⟨h.cas, h.kept, h.logged, h.tracks, fun s mem => ?_, h.dict⟩, ?_⟩
      · rcases mem_append.mp mem with old | new
        · exact h.segments s old
        · rw [mem_singleton.mp new]
          exact inside
      · constructor <;> simp [tracksOf, segmentsOf, metaOf, pinsOf, secretsOf]
  | pinDict index =>
      obtain ⟨w₁, added, ran⟩ := ok_of_bindO ran
      cases ran
      rw [ContainerWriter.pinDict] at added
      obtain ⟨u, checked_, added⟩ := ok_of_bindO added
      have inside : index.toNat < w.chunks.length := by
        rw [ContainerWriter.checkChunkIndex] at checked_
        split at checked_
        · assumption
        · cases checked_
      rw [append_nil]
      by_cases known : index ∈ w.dict
      · rw [if_pos known] at added
        cases added
        refine ⟨⟨h.cas, h.kept, h.logged, h.tracks, h.segments, h.dict⟩, ?_⟩
        constructor <;> simp [tracksOf, segmentsOf, metaOf, pinsOf, secretsOf, pin, known]
      · rw [if_neg known] at added
        cases added
        refine ⟨⟨h.cas, h.kept, h.logged, h.tracks, h.segments, ?_, fun i mem => ?_⟩, ?_⟩
        · rw [List.nodup_append]
          exact ⟨h.dict.1, List.nodup_singleton index, fun a mem b mem' same => by
            rw [mem_singleton.mp mem'] at same
            exact known (same ▸ mem)⟩
        · rcases mem_append.mp mem with old | new
          · exact h.dict.2 i old
          · rw [mem_singleton.mp new]
            exact inside
        · constructor <;> simp [tracksOf, segmentsOf, metaOf, pinsOf, secretsOf, pin, known]

/-- Every run of calls keeps the writer in step. -/
theorem run_inv (h : WriterInv env w log) (ran : w.run env calls = .ok (w', later))
    (small : ∀ p ∈ later, p.2.length ≤ maxChunkRaw) : WriterInv env w' (log ++ later) ∧ Grown w calls w' := by
  induction calls generalizing w log later with
  | nil =>
      cases ran
      rw [append_nil]
      exact ⟨h, Grown.refl _⟩
  | cons call rest ih =>
      rw [ContainerWriter.run] at ran
      obtain ⟨⟨w₁, first⟩, stepped, ran⟩ := ok_of_bindO ran
      obtain ⟨⟨w₂, last⟩, more, ran⟩ := ok_of_bindO ran
      cases ran
      obtain ⟨inv, grown⟩ := step_inv h stepped fun p mem => small p (mem_append_left _ mem)
      obtain ⟨inv', grown'⟩ := ih inv more fun p mem => small p (List.mem_append_right _ mem)
      rw [append_assoc] at inv'
      exact ⟨inv', grown.trans grown'⟩

end Run

section Read
variable {env : ContainerEnv} {w : ContainerWriter} {log : ChunkLog} {r : Reader} {indices : List UInt32}

/-- What is known of a reader that opened what a writer left. -/
structure Reopens (env : ContainerEnv) (w : ContainerWriter) (r : Reader) : Prop where
  chunks : r.chunks = w.chunks
  dataOffset : r.dataOffset = superblockLen
  dataLen : r.dataLen = w.data.length
  file : ∃ head back, head.length = superblockLen ∧ r.file = head ++ (w.data ++ back)
  near : superblockLen + w.data.length < 2 ^ 63
  few : w.chunks.length < 2 ^ 32

theorem Reopens.readChunk (o : Reopens env w r) {k : Nat} {c : ChunkRecord} {raw : Bytes}
    (found : w.chunks[k]? = some c) (holds : HoldsChunks env w.data c raw) :
    r.readChunk env (UInt32.ofNat k) = .ok raw := by
  obtain ⟨hash, small, lenRaw, front, stored, back, data, start, long, unpacked⟩ := holds
  obtain ⟨head, behind, headLength, file⟩ := o.file
  have near := o.near
  have few := o.few
  have within : k < w.chunks.length := (List.getElem?_eq_some_iff.mp found).1
  have there : r.chunks[(UInt32.ofNat k).toNat]? = some c := by
    rw [ofNat_toNat (by omega), o.chunks]
    exact found
  have lengths : w.data.length = front.length + (stored.length + back.length) := by
    rw [data, length_append, length_append]
  have raw_ : c.lenRaw.toNat = raw.length := by
    rw [lenRaw, lenRaw_toNat small]
  have bounded : r.Bounded c := by
    rw [Reader.Bounded, o.dataLen, raw_]
    exact ⟨by omega, small⟩
  have place : r.chunkPlace (UInt32.ofNat k) = .ok (superblockLen + c.dataOffset, c) := by
    rw [chunkPlace_some there, if_pos bounded, position_eq (by rw [o.dataOffset]; omega), o.dataOffset, if_pos (by omega),
      if_neg (by omega)]
  have read : readAt r.file (superblockLen + c.dataOffset) c.lenStored.toNat = .ok stored := by
    have split : r.file = (head ++ front) ++ (stored ++ (back ++ behind)) := by
      rw [file, data]
      simp only [append_assoc]
    rw [split]
    apply readAt_middle
    · rw [length_append, headLength, start]
    · exact long
    · omega
  rw [Reader.readChunk, Reader.readChunkStored, place]
  simp only [ok_bind, read, pure_eq, unpacked, Reader.chunkAt, there]
  rw [if_neg]
  rintro (differs | differs)
  · exact differs raw_.symm
  · exact differs hash

theorem chunksBytes_ok {payloads : List Bytes}
    (each : List.Forall₂ (fun i p => r.readChunk env i = .ok p) indices payloads) :
    r.chunksBytes env indices = .ok payloads.flatten := by
  induction each with
  | nil => rfl
  | cons first rest ih =>
      rw [Reader.chunksBytes, first, ih]
      rfl

/-- Every index in range was returned by a call, and leads to the payload of that call. -/
theorem Reopens.payloads (o : Reopens env w r) (inv : WriterInv env w log)
    (inside : ∀ i ∈ indices, i.toNat < w.chunks.length) :
    ∃ payloads, Payloads log indices payloads ∧ r.chunksBytes env indices = .ok payloads.flatten := by
  have all : ∃ payloads, Payloads log indices payloads ∧
      List.Forall₂ (fun i p => r.readChunk env i = .ok p) indices payloads := by
    induction indices with
    | nil => exact ⟨[], .nil, .nil⟩
    | cons i rest ih =>
        obtain ⟨payloads, logged, read⟩ := ih fun j mem => inside j (mem_cons_of_mem i mem)
        have within := inside i mem_cons_self
        have found : w.chunks[i.toNat]? = some w.chunks[i.toNat] := List.getElem?_eq_getElem within
        obtain ⟨raw, holds, there⟩ := inv.kept i.toNat _ found
        have here := o.readChunk found holds
        rw [UInt32.ofNat_toNat] at there here
        exact ⟨raw :: payloads, .cons there logged, .cons here read⟩
  obtain ⟨payloads, logged, read⟩ := all
  exact ⟨payloads, logged, chunksBytes_ok read⟩

/-- An index was returned for one payload only, if no two payloads have the same hash. -/
theorem Reopens.exact (o : Reopens env w r) (inv : WriterInv env w log)
    (clear : ∀ p ∈ log, ∀ q ∈ log, env.hashChunk p.2 = env.hashChunk q.2 → p.2 = q.2) {index : UInt32}
    {payload payload' : Bytes} (mem : (index, payload) ∈ log) (mem' : (index, payload') ∈ log) :
    payload = payload' := by
  obtain ⟨k, c, there, rfl, hash⟩ := inv.logged index payload mem
  obtain ⟨k', c', there', same, hash'⟩ := inv.logged _ payload' mem'
  have few := o.few
  have within := (List.getElem?_eq_some_iff.mp there).1
  have within' := (List.getElem?_eq_some_iff.mp there').1
  have numbers := congrArg UInt32.toNat same
  rw [ofNat_toNat (by omega), ofNat_toNat (by omega)] at numbers
  subst numbers
  rw [there, Option.some.injEq] at there'
  subst there'
  exact clear _ mem _ mem' (hash.symm.trans hash')

theorem Reopens.countBytes (o : Reopens env w r) (inv : WriterInv env w log) (left index bytes : Nat)
    (last : index + left = w.chunks.length) (room : bytes + left * maxChunkRaw < 2 ^ 64) :
    ∃ n, r.countBytes env left index bytes = .ok n := by
  induction left generalizing index bytes with
  | zero => exact ⟨bytes, rfl⟩
  | succ left ih =>
      have found : w.chunks[index]? = some w.chunks[index] := List.getElem?_eq_getElem (by omega)
      obtain ⟨raw, holds, -⟩ := inv.kept index _ found
      have short : raw.length ≤ maxChunkRaw := holds.2.1
      rw [Nat.succ_mul] at room
      obtain ⟨n, more⟩ := ih (index + 1) (bytes + raw.length) (by omega) (by omega)
      refine ⟨n, ?_⟩
      rw [Reader.countBytes, o.readChunk found holds, ok_bind, checked, if_pos (by omega), ok_bind]
      exact more

theorem Reopens.verify (o : Reopens env w r) (inv : WriterInv env w log) (integrity : r.integrity = w.integrity env)
    {entry : SectionEntry} (section_ : findSection r.sections .data = .ok entry)
    (hash : entry.hash = env.hashChunk w.data) : ∃ report, r.verify env = .ok report := by
  obtain ⟨head, back, headLength, file⟩ := o.file
  have few := o.few
  obtain ⟨n, counted⟩ := o.countBytes inv w.chunks.length 0 0 (Nat.zero_add _) (by
    rw [maxChunkRaw]
    omega)
  have data : readAt r.file r.dataOffset r.dataLen = .ok w.data := by
    rw [file, o.dataOffset, o.dataLen]
    exact readAt_middle headLength rfl (by decide)
  have declared : ¬ (merkleRoot env.hashChunk (r.chunks.map ChunkRecord.hash) ≠ r.integrity.merkleRoot ∨
      r.integrity.chunkCount ≠ r.chunks.length) := by
    rw [integrity, o.chunks]
    rintro (root | count)
    · exact root rfl
    · exact count rfl
  rw [Reader.verify]
  rw [o.chunks] at declared ⊢
  rw [ofNat_toNat few, counted, ok_bind, if_neg declared, section_, ok_bind, data, ok_bind,
    hash, if_neg (not_not.mpr rfl)]
  exact ⟨_, rfl⟩

end Read

section Finish
variable {env : ContainerEnv} {w : ContainerWriter} {log : ChunkLog} {r : Reader} {file : Bytes} {stats : PackStats}

/-- A finished container and what was checked on the way. -/
theorem finish_ok (h : w.finish env = .ok (file, stats)) :
    file = containerBytes env (superblockOf env w.compression w.timescale w.assetUuid w.data (w.tables env)) w.data
        (w.tables env) ∧
      containerSize env w.data (w.tables env) < 2 ^ 63 ∧
      ∀ s ∈ w.texts env, (strBytes s).length < 2 ^ 16 := by
  rw [ContainerWriter.finish] at h
  split at h
  · rename_i texts
    dsimp only at h
    split at h
    · cases h
    · rename_i near
      cases h
      refine ⟨rfl, Nat.lt_of_not_le near, fun s mem => ?_⟩
      have short := of_decide_eq_true (List.all_eq_true.mp texts s mem)
      omega
  · cases h

theorem signaturePairs_fit : ∀ m ∈ w.signaturePairs env, (strBytes m.2).length < 2 ^ 32 := by
  intro m mem
  rw [ContainerWriter.signaturePairs] at mem
  cases signer : w.signer with
  | none =>
      rw [signer] at mem
      cases mem
  | some secret =>
      rw [signer] at mem
      simp only [mem_cons, List.not_mem_nil, or_false] at mem
      rcases mem with rfl | rfl
      · have long := (strBytes_hexString
          (env.sign secret (contentSignatureMessage (w.integrity env).merkleRoot w.chunks.length))).1
        rw [env.sign_length] at long
        exact long.trans_lt (by decide)
      · have long := (strBytes_hexString (env.publicKey secret).1).1
        rw [(env.publicKey secret).2] at long
        exact long.trans_lt (by decide)

theorem sum_toNat_lt {l : List UInt32} (few : l.length < 2 ^ 32) : (l.map UInt32.toNat).sum < 2 ^ 64 := by
  have bound : (l.map UInt32.toNat).sum ≤ l.length * (2 ^ 32 - 1) := by
    clear few
    induction l with
    | nil => exact Nat.zero_le _
    | cons x l ih =>
        have small := x.toNat_lt
        rw [List.map_cons, List.sum_cons, List.length_cons, Nat.succ_mul]
        generalize l.length * (2 ^ 32 - 1) = rest at ih ⊢
        omega
  calc (l.map UInt32.toNat).sum ≤ l.length * (2 ^ 32 - 1) := bound
    _ ≤ (2 ^ 32 - 1) * (2 ^ 32 - 1) := Nat.mul_le_mul_right _ (Nat.le_pred_of_lt few)
    _ < 2 ^ 64 := by decide

theorem dict_length (inv : WriterInv env w log) : w.dict.length ≤ w.chunks.length := by
  have numbers : (w.dict.map UInt32.toNat).Nodup :=
    List.Nodup.map (fun _ _ same => UInt32.toNat_inj.mp same) inv.dict.1
  have inside : w.dict.map UInt32.toNat ⊆ List.range w.chunks.length := by
    intro n mem
    obtain ⟨i, listed, rfl⟩ := mem_map.mp mem
    exact List.mem_range.mpr (inv.dict.2 i listed)
  have shorter := (List.subperm_of_subset numbers inside).length_le
  rwa [length_map, List.length_range] at shorter

/-- With counts that fit, everything in the tables fits. -/
theorem tables_fit (inv : WriterInv env w log) (counts : w.CountsFit env) (finished : w.finish env = .ok (file, stats))
    (values : ∀ m ∈ w.metaPairs, (strBytes m.2).length < 2 ^ 32) : (w.tables env).Fits := by
  obtain ⟨-, near, texts⟩ := finish_ok finished
  constructor
  · refine ⟨counts.tracks.1, fun t mem => ?_⟩
    have named : ∀ s ∈ [t.codec, t.name], (strBytes s).length < 2 ^ 16 := fun s listed =>
      texts s (mem_append_left _ (List.mem_flatMap.mpr ⟨t, mem, listed⟩))
    exact ⟨named _ mem_cons_self, named _ (mem_cons_of_mem _ mem_cons_self), counts.tracks.2 t mem⟩
  · exact (dict_length inv).trans_lt counts.chunks
  · refine ⟨counts.chunks, fun c mem => ?_⟩
    obtain ⟨k, within, rfl⟩ := List.getElem_of_mem mem
    obtain ⟨raw, ⟨-, -, -, front, stored, back, data, start, -⟩, -⟩ := inv.kept k _ (List.getElem?_eq_getElem within)
    have lengths := congrArg List.length data
    rw [length_append] at lengths
    rw [containerSize, directoryOffset] at near
    omega
  · exact counts.segments
  · refine ⟨counts.metaPairs, fun m mem => ⟨?_, ?_⟩⟩
    · exact texts m.1 (List.mem_append_right _ (List.mem_map_of_mem mem))
    · rcases mem_append.mp mem with own | signature
      · exact values m own
      · exact signaturePairs_fit m signature
  · refine ⟨counts.chunks.trans (by decide), ?_, ?_⟩
    · have sum := sum_toNat_lt (l := w.chunks.map ChunkRecord.lenRaw) (by rw [length_map]; exact counts.chunks)
      rw [map_map] at sum
      exact sum
    · have sum := sum_toNat_lt (l := w.chunks.map ChunkRecord.lenStored) (by rw [length_map]; exact counts.chunks)
      rw [map_map] at sum
      exact sum

/-- The signature is found among the metadata when no caller wrote a key of its kind. -/
theorem metaValue_signature (own : ∀ m ∈ w.metaPairs, isSignatureKey m.1 = false)
    (metaPairs : r.metaPairs = w.metaPairs ++ w.signaturePairs env) (key : String) (kind : isSignatureKey key = true) :
    r.metaValue key = ((w.signaturePairs env).find? fun p => p.1 = key).map Prod.snd := by
  have none_ : w.metaPairs.find? (fun p => p.1 = key) = none := by
    refine List.find?_eq_none.mpr fun m mem same => ?_
    have other := own m mem
    rw [of_decide_eq_true same, kind] at other
    cases other
  rw [Reader.metaValue, metaPairs, List.find?_append, none_, Option.none_or]

theorem verifySignature_written (own : ∀ m ∈ w.metaPairs, isSignatureKey m.1 = false)
    (metaPairs : r.metaPairs = w.metaPairs ++ w.signaturePairs env) (integrity : r.integrity = w.integrity env) :
    r.verifySignature env = .ok (match w.signer with
      | some secret => .valid (env.publicKey secret)
      | none => .unsigned) := by
  have first := metaValue_signature own metaPairs "sig.ed25519" (by decide +kernel)
  have second := metaValue_signature own metaPairs "sig.pubkey" (by decide +kernel)
  cases signer : w.signer with
  | none =>
      have unsigned : r.embeddedSignature = .ok none := by
        rw [Reader.embeddedSignature, Reader.hexField, first, ContainerWriter.signaturePairs, signer]
        rfl
      rw [Reader.verifySignature, unsigned]
      rfl
  | some secret =>
      have pairs : w.signaturePairs env = [("sig.ed25519", hexString (env.sign secret
          (contentSignatureMessage (w.integrity env).merkleRoot w.chunks.length))),
          ("sig.pubkey", toHex (env.publicKey secret))] := by
        rw [ContainerWriter.signaturePairs, signer]
        rfl
      rw [pairs] at first second
      have embedded := embeddedSignature_hex (r := r) (env.sign_length secret _) first second
      refine verifySignature_valid embedded (env.validKey_publicKey secret) ?_
      rw [integrity]
      exact env.verifies_sign secret _

variable {calls : List WriterCall} {uuid : Uuid} {timescale : UInt32} {compress : Bool}

theorem create_compression (uuid : Uuid) (timescale : UInt32) (compress : Bool) :
    (ContainerWriter.create uuid timescale compress).compression ≤ compressionZstd := by
  cases compress with
  | false =>
      change compressionNone ≤ compressionZstd
      decide
  | true =>
      change compressionZstd ≤ compressionZstd
      decide

/-- A finished file with counts that fit is opened. -/
theorem openFile_finished (inv : WriterInv env w log) (finished : w.finish env = .ok (file, stats))
    (known : w.compression ≤ compressionZstd) (values : ∀ m ∈ w.metaPairs, (strBytes m.2).length < 2 ^ 32)
    (counts : w.CountsFit env) : Reader.openFile env file = .ok (openedFrom env
      (superblockOf env w.compression w.timescale w.assetUuid w.data (w.tables env)) w.data (w.tables env)) := by
  obtain ⟨rfl, near, -⟩ := finish_ok finished
  exact openFile_containerBytes w.timescale w.assetUuid known (tables_fit inv counts finished values) near

theorem reopens_finished (finished : w.finish env = .ok (file, stats)) (counts : w.CountsFit env) :
    Reopens env w (openedFrom env (superblockOf env w.compression w.timescale w.assetUuid w.data (w.tables env))
      w.data (w.tables env)) := by
  obtain ⟨-, near, -⟩ := finish_ok finished
  constructor
  · rfl
  · rfl
  · rfl
  · refine ⟨containerHead (superblockOf env w.compression w.timescale w.assetUuid w.data (w.tables env)),
      (w.tables env).sections.flatMap Prod.snd ++
        (directoryOf env w.data (w.tables env)).flatMap encodeSectionEntry, containerHead_length w.assetUuid.2, ?_⟩
    have shape := containerBytes_eq env w.data (w.tables env)
      (superblockOf env w.compression w.timescale w.assetUuid w.data (w.tables env))
    rw [List.flatMap_cons, append_assoc] at shape
    exact shape
  · rw [containerSize, directoryOffset] at near
    omega
  · exact counts.chunks

/-- With counts that fit, the file is opened to what the calls wrote. -/
theorem roundTrip_of_countsFit (inv : WriterInv env w log)
    (grown : Grown (ContainerWriter.create uuid timescale compress) calls w)
    (finished : w.finish env = .ok (file, stats))
    (clear : ∀ p ∈ log, ∀ q ∈ log, env.hashChunk p.2 = env.hashChunk q.2 → p.2 = q.2)
    (values : ∀ m ∈ metaOf calls, (strBytes m.2).length < 2 ^ 32)
    (own : ∀ m ∈ metaOf calls, isSignatureKey m.1 = false) (counts : w.CountsFit env) :
    ∃ r, Reader.openFile env file = .ok r ∧ RoundTrip env calls log r := by
  have metas : w.metaPairs = metaOf calls := grown.metaPairs
  have signer : w.signer = signerOf calls := by
    rw [grown.signer, signerOf]
    exact Option.or_none
  have known : w.compression ≤ compressionZstd := by
    rw [grown.compression]
    exact create_compression uuid timescale compress
  have opened := openFile_finished inv finished known (by rw [metas]; exact values) counts
  have opens := reopens_finished finished counts
  set r := openedFrom env (superblockOf env w.compression w.timescale w.assetUuid w.data (w.tables env)) w.data
    (w.tables env) with hr
  refine ⟨r, opened, ?_⟩
  have tracks : r.tracks = tracksOf calls := grown.tracks
  have segments : r.segments = segmentsOf calls := grown.segments
  constructor
  · exact tracks
  · exact segments
  · exact grown.dict
  · refine ⟨w.signaturePairs env, ?_, ?_⟩
    · rw [← metas]
      rfl
    · rw [← signer, ContainerWriter.signaturePairs]
      cases w.signer <;> rfl
  · intro s mem
    rw [← segments] at mem
    exact opens.payloads inv (inv.segments s mem)
  · intro id t found
    rw [← tracks] at found
    obtain ⟨payloads, logged, read⟩ := opens.payloads inv (inv.tracks t (List.mem_of_find?_eq_some found))
    refine ⟨payloads, logged, ?_⟩
    rw [Reader.trackInitBytes, Reader.track, found]
    exact read
  · intro index payload payload'
    exact opens.exact inv clear
  · have data : findSection r.sections .data = .ok ⟨.data, superblockLen, w.data.length, env.hashChunk w.data⟩ := rfl
    exact opens.verify inv rfl data rfl
  · rw [← signer]
    exact verifySignature_written (by rw [metas]; exact own) rfl rfl

/-- What is read back has counts that fit. -/
theorem countsFit_of_roundTrip (grown : Grown (ContainerWriter.create uuid timescale compress) calls w)
    (finished : w.finish env = .ok (file, stats)) (opened : Reader.openFile env file = .ok r)
    (trip : RoundTrip env calls log r) : w.CountsFit env := by
  obtain ⟨rfl, near, -⟩ := finish_ok finished
  have counted := openFile_returns env (containerBytes env
    (superblockOf env w.compression w.timescale w.assetUuid w.data (w.tables env)) w.data (w.tables env))
  rw [opened] at counted
  obtain ⟨-, counted⟩ := counted
  have tracks : w.tracks = tracksOf calls := grown.tracks
  have segments : w.segments = segmentsOf calls := grown.segments
  have metas : w.metaPairs = metaOf calls := grown.metaPairs
  have signer : w.signer = signerOf calls := by
    rw [grown.signer, signerOf]
    exact Option.or_none
  constructor
  · rw [tracks, ← trip.tracks]
    exact counted.tracks
  · rw [segments, ← trip.segments]
    exact counted.segments
  · have rows : w.chunks.length < 2 ^ 64 := by
      have table : w.chunks.length * 1 ≤ (w.chunks.flatMap encodeChunkRow).length := by
        apply length_flatMap_ge
        intro c mem
        simp only [encodeChunkRow, length_append, c.hash.2]
        omega
      have part := length_le_flatMap (f := Prod.snd) (l := (w.tables env).sections)
        (x := (.chunks, encodeTable encodeChunkRow w.chunks)) (by simp [Tables.sections, ContainerWriter.tables])
      simp only [encodeTable, length_append, le_length] at part
      rw [containerSize, directoryOffset] at near
      omega
    have known : w.compression ≤ compressionZstd := by
      rw [grown.compression]
      exact create_compression uuid timescale compress
    have declared : r.integrity.chunkCount = w.chunks.length := openFile_chunkCount known rows near opened
    obtain ⟨report, verified⟩ := trip.verify
    rw [Reader.verify] at verified
    obtain ⟨bytes, -, verified⟩ := ok_of_bindO verified
    split at verified
    · cases verified
    · rename_i same
      have few := counted.chunks
      rw [not_or, not_not, not_not] at same
      omega
  · obtain ⟨extra, metaPairs, keys⟩ := trip.metaPairs
    have few := counted.metaPairs
    have lengths : extra.length = (w.signaturePairs env).length := by
      rw [← length_map (f := Prod.fst), keys, ContainerWriter.signaturePairs, signer]
      cases signerOf calls <;> rfl
    rw [metaPairs, length_append, lengths, ← metas, ← length_append] at few
    exact few

/-- A run of calls that all succeed writes a file that gives back what they wrote exactly
when every table and every list of chunks has fewer than `2 ^ 32` entries. -/
theorem roundTrip_iff (env : ContainerEnv) (uuid : Uuid) (timescale : UInt32) (compress : Bool)
    (calls : List WriterCall) (w : ContainerWriter) (log : ChunkLog) (file : Bytes) (stats : PackStats)
    (ran : (ContainerWriter.create uuid timescale compress).run env calls = .ok (w, log))
    (finished : w.finish env = .ok (file, stats)) (small : ∀ p ∈ log, p.2.length ≤ maxChunkRaw)
    (clear : ∀ p ∈ log, ∀ q ∈ log, env.hashChunk p.2 = env.hashChunk q.2 → p.2 = q.2)
    (values : ∀ m ∈ metaOf calls, (strBytes m.2).length < 2 ^ 32)
    (own : ∀ m ∈ metaOf calls, isSignatureKey m.1 = false) :
    (∃ r, Reader.openFile env file = .ok r ∧ RoundTrip env calls log r) ↔ w.CountsFit env := by
  obtain ⟨inv, grown⟩ := run_inv (create_inv uuid timescale compress) ran small
  rw [List.nil_append] at inv
  constructor
  · rintro ⟨r, opened, trip⟩
    exact countsFit_of_roundTrip grown finished opened trip
  · intro counts
    exact roundTrip_of_countsFit inv grown finished clear values own counts

end Finish

section Sample
variable {env : ContainerEnv} {w : ContainerWriter}

theorem checkChunkIndices_inRange {l : List UInt32} (inside : ∀ i ∈ l, i.toNat < w.chunks.length) :
    w.checkChunkIndices l = .ok () := by
  induction l with
  | nil => rfl
  | cons i rest ih =>
      rw [ContainerWriter.checkChunkIndices, ContainerWriter.checkChunkIndex, if_pos (inside i mem_cons_self),
        ok_bind]
      exact ih fun j mem => inside j (mem_cons_of_mem i mem)

theorem finish_isOk (texts : ∀ s ∈ w.texts env, (strBytes s).length ≤ 2 ^ 16 - 1)
    (near : containerSize env w.data (w.tables env) < 2 ^ 63) : ∃ file stats, w.finish env = .ok (file, stats) := by
  rw [ContainerWriter.finish, if_pos (List.all_eq_true.mpr fun s mem => decide_eq_true (texts s mem))]
  dsimp only
  rw [if_neg (Nat.not_le.mpr near)]
  exact ⟨_, _, rfl⟩

/-- A track that lists the first chunk `n` times. -/
def repeatedTrack (n : Nat) : TrackRecord := ⟨0, .data, 0, "", "", 0, List.replicate n 0⟩

def repeatedCalls (n : Nat) : List WriterCall := [.addChunk [7], .addTrack (repeatedTrack n)]

/-- A writer with one chunk. -/
def oneChunkWriter : ContainerWriter :=
  ContainerWriter.store
    { (ContainerWriter.create zeroUuid 0 false).count [7] with cas := [(plainEnv.hashChunk [7], 0)] }
    (plainEnv.hashChunk [7]) [7] none

def repeatedWriter (n : Nat) : ContainerWriter := { oneChunkWriter with tracks := [repeatedTrack n] }

theorem run_repeatedCalls (n : Nat) : (ContainerWriter.create zeroUuid 0 false).run plainEnv
    (repeatedCalls n) = .ok (repeatedWriter n, [(0, [7])]) := by
  have first : (ContainerWriter.create zeroUuid 0 false).step plainEnv (.addChunk [7]) =
      .ok (oneChunkWriter, [(0, [7])]) := rfl
  have added : oneChunkWriter.addTrack (repeatedTrack n) = .ok (repeatedWriter n) := by
    rw [ContainerWriter.addTrack, checkChunkIndices_inRange]
    · rfl
    · intro i mem
      rw [List.eq_of_mem_replicate mem]
      decide
  rw [repeatedCalls, ContainerWriter.run, first, ok_bind]
  dsimp only
  rw [ContainerWriter.run, ContainerWriter.step, added]
  rfl

theorem finish_repeatedWriter {n : Nat} (small : n < 2 ^ 60) :
    ∃ file stats, (repeatedWriter n).finish plainEnv = .ok (file, stats) := by
  apply finish_isOk
  · have texts : (repeatedWriter n).texts plainEnv = ["", ""] := rfl
    rw [texts]
    decide +kernel
  · have tables : (repeatedWriter n).tables plainEnv = ⟨[repeatedTrack n], [], oneChunkWriter.chunks, [], [],
        oneChunkWriter.integrity plainEnv⟩ := rfl
    have rows : ((List.replicate n (0 : UInt32)).flatMap encodeChunkIndex).length = n * 4 := by
      rw [length_flatMap_const (f := encodeChunkIndex) (n := 4) (fun _ => le_length 4 _), List.length_replicate]
    have track : (encodeTrack (repeatedTrack n)).length = 18 + n * 4 := by
      have empty : (strBytes "").length = 0 := by decide +kernel
      simp only [encodeTrack, repeatedTrack, encodeTable, length_append, le_length, encodeText_length, rows, empty]
      omega
    have chunk : (oneChunkWriter.chunks.flatMap encodeChunkRow).length = 52 := by decide +kernel
    have integrity : (encodeIntegrity (oneChunkWriter.integrity plainEnv)).length = 56 := by decide +kernel
    have data : (repeatedWriter n).data = [7] := rfl
    rw [containerSize, length_flatMap_const encodeSectionEntry_length, directoryOf, entriesFrom_length, directoryOffset,
      tables, data]
    simp only [Tables.sections, encodeTable, List.flatMap_cons, List.flatMap_nil, length_append, List.length_cons,
      List.length_nil, le_length, track, chunk, integrity, superblockLen, sectionDirEntryLen]
    omega

/-- A track that lists its chunk twice is read back. -/
theorem roundTrip_iff_repeated : ∃ file stats r, (repeatedWriter 2).finish plainEnv = .ok (file, stats) ∧
    Reader.openFile plainEnv file = .ok r ∧ RoundTrip plainEnv (repeatedCalls 2) [(0, [7])] r := by
  obtain ⟨file, stats, finished⟩ := finish_repeatedWriter (n := 2) (by decide)
  obtain ⟨r, trip⟩ := (roundTrip_iff plainEnv zeroUuid 0 false (repeatedCalls 2) (repeatedWriter 2) [(0, [7])] file
    stats (run_repeatedCalls 2) finished (by decide) (by simp) (by simp [metaOf, repeatedCalls])
    (by simp [metaOf, repeatedCalls])).mpr
    ⟨by decide +kernel, by decide +kernel, by decide +kernel, by decide +kernel⟩
  exact ⟨file, stats, r, finished, trip⟩

/-- A track may list more chunks than its count says. -/
theorem not_roundTrip_repeated : ¬ ∀ (env : ContainerEnv) (uuid : Uuid) (timescale : UInt32) (compress : Bool)
    (calls : List WriterCall) (w : ContainerWriter) (log : ChunkLog) (file : Bytes) (stats : PackStats),
    (ContainerWriter.create uuid timescale compress).run env calls = .ok (w, log) →
    w.finish env = .ok (file, stats) → (∀ p ∈ log, p.2.length ≤ maxChunkRaw) →
    (∀ p ∈ log, ∀ q ∈ log, env.hashChunk p.2 = env.hashChunk q.2 → p.2 = q.2) →
    (∀ m ∈ metaOf calls, (strBytes m.2).length < 2 ^ 32) → (∀ m ∈ metaOf calls, isSignatureKey m.1 = false) →
    ∃ r, Reader.openFile env file = .ok r ∧ RoundTrip env calls log r := by
  intro trips
  obtain ⟨n, large⟩ : ∃ n : Nat, n = 2 ^ 32 := ⟨_, rfl⟩
  have small : ∀ p ∈ [((0 : UInt32), ([7] : Bytes))], p.2.length ≤ maxChunkRaw := by decide
  obtain ⟨file, stats, finished⟩ := finish_repeatedWriter (n := n) (by omega)
  obtain ⟨r, opened, trip⟩ := trips plainEnv zeroUuid 0 false (repeatedCalls n) (repeatedWriter n)
    [(0, [7])] file stats (run_repeatedCalls n) finished small (by simp) (by simp [metaOf, repeatedCalls])
    (by simp [metaOf, repeatedCalls])
  obtain ⟨-, grown⟩ := run_inv (create_inv _ _ _) (run_repeatedCalls n) small
  have counts := countsFit_of_roundTrip grown finished opened trip
  have few := counts.tracks.2 (repeatedTrack n) (mem_singleton.mpr rfl)
  rw [repeatedTrack, List.length_replicate] at few
  omega

end Sample
end Cavs
