import Cavs.Gate
import Cavs.KeyedList
import Cavs.SignatureCalls

/-!
# What an update would cost a client that reuses fixed chunks

The old build is a table of chunk hashes, and every file of the new build is cut into chunks of
one size and looked up in it. A file of which nothing is left to say is counted, the others are
listed.
-/
namespace Cavs.Steampipe
open FileProg (Bytes)
open Signature (cut)
open KeyedList (lookup_iff lookup_mapped mem_of_lookup)

section Model

inductive Compression where
  | none
  | zstd (level : Int)
  deriving DecidableEq, Repr

def Compression.label : Compression → String
  | .none => "none"
  | .zstd level => "zstd-" ++ toString level

inductive Scope where
  | perFile
  | global
  deriving DecidableEq, Repr

def Scope.label : Scope → String
  | .perFile => "per-file"
  | .global => "global"

structure ModelConfig where
  chunkSize : Nat
  compression : Compression
  scope : Scope

inductive FileStatus where
  | new
  | modified
  deriving DecidableEq, Repr

structure FileEstimate where
  path : String
  status : FileStatus
  isPack : Bool
  oldSize : Nat
  newSize : Nat
  totalChunks : Nat
  newChunks : Nat
  downloadRaw : Nat
  downloadCompressed : Nat
  changedChunkIndices : List UInt32
  deriving DecidableEq, Repr

structure Estimate where
  chunkSize : Nat
  compression : String
  scope : String
  hash : String
  oldSizeBytes : Nat
  newSizeBytes : Nat
  filesOld : Nat
  filesNew : Nat
  filesUnchanged : Nat
  filesModified : Nat
  filesAdded : Nat
  filesDeleted : Nat
  deletedPaths : List String
  totalChunksNew : Nat
  newOrChangedChunks : Nat
  estimatedDownloadRaw : Nat
  estimatedDownloadCompressed : Nat
  rebuildReadBytes : Nat
  rebuildWriteBytes : Nat
  files : List FileEstimate

/-- The files of a directory, each by its own path, with their bytes. -/
structure Tree where
  files : List (String × Bytes)
  distinct : (files.map Prod.fst).Nodup

/-- One side of a transition. -/
inductive Build where
  | artifact (name : String) (content : Bytes)
  | directory (tree : Tree)

def Build.walk : Build → List (String × Bytes)
  | .artifact name content => [(name, content)]
  | .directory tree => tree.files

/-- Two single files are one artifact, under the name of the new one. -/
def relabel : Build → Build → List (String × Bytes) × List (String × Bytes)
  | .artifact _ content, .artifact name content' => ([(name, content)], [(name, content')])
  | old, new => (old.walk, new.walk)

def kept (keep : String → Bool) (files : List (String × Bytes)) : List (String × Bytes) :=
  files.filter fun f => keep f.1

def packExts : List String :=
  ["pak", "ucas", "utoc", "pck", "bundle", "assets", "ress", "archive", "big", "dat", "blob", "pack", "zip"]

def isPack (path : String) : Bool :=
  match (path.toList.splitOn '.').getLast? with
  | some ext => packExts.any fun e => eqIgnoreAsciiCase e (String.ofList ext)
  | none => false

end Model

section Code
variable (hashChunk : Bytes → ChunkHash) (zstd : Int → Bytes → Option Nat)

/-- The file cannot be mapped when it is empty; it has no chunks then. -/
def fixedHashes (data : Bytes) (chunk : Nat) : List ChunkHash := (cut chunk data).map hashChunk

def compressedLen (data : Bytes) : Compression → Nat
  | .none => data.length
  | .zstd level => (zstd level data).getD data.length

/-- The old build: every path has one file, so its tables are lists. -/
structure OldIndex where
  perFile : List (String × Finset ChunkHash)
  oldSizes : List (String × Nat)
  global : Finset ChunkHash
  total : Nat

def indexOld (cfg : ModelConfig) (chunk : Nat) (old : List (String × Bytes)) : OldIndex where
  perFile := old.map fun f => (f.1, (fixedHashes hashChunk f.2 chunk).toFinset)
  oldSizes := old.map fun f => (f.1, f.2.length)
  global := if cfg.scope = .global then (old.flatMap fun f => fixedHashes hashChunk f.2 chunk).toFinset else ∅
  total := (old.map fun f => f.2.length).sum

/-- What the chunks of one file add up to: those that are new, their bytes, the bytes to be
transferred and their places. -/
structure FileCost where
  new : Nat
  raw : Nat
  compressed : Nat
  changed : List UInt32

def addChunk (cfg : ModelConfig) (lookup : Finset ChunkHash) (cost : FileCost) (piece : Bytes × Nat) : FileCost :=
  if hashChunk piece.1 ∈ lookup then cost
  else
    { new := cost.new + 1
      raw := cost.raw + piece.1.length
      compressed := cost.compressed + compressedLen zstd piece.1 cfg.compression
      changed := cost.changed ++ [UInt32.ofNat piece.2] }

def fileCost (cfg : ModelConfig) (chunk : Nat) (lookup : Finset ChunkHash) (data : Bytes) : FileCost :=
  (cut chunk data).zipIdx.foldl (addChunk hashChunk zstd cfg lookup) ⟨0, 0, 0, []⟩

/-- The running counts over the new build. -/
structure Tally where
  files : List FileEstimate
  newTotal : Nat
  totalChunks : Nat
  newChunks : Nat
  downloadRaw : Nat
  downloadCompressed : Nat
  rebuildRead : Nat
  rebuildWrite : Nat
  unchanged : Nat
  seenPaths : List String

def Tally.start : Tally := ⟨[], 0, 0, 0, 0, 0, 0, 0, 0, []⟩

/-- The size is that of the old file, every hash is one of its hashes, and there are as many
hashes as the old file has different ones. -/
def samePathMatch (idx : OldIndex) (chunk : Nat) (f : String × Bytes) : Bool :=
  match idx.perFile.lookup f.1 with
  | none => false
  | some of =>
      let hashes := fixedHashes hashChunk f.2 chunk
      idx.oldSizes.lookup f.1 = some f.2.length && hashes.all (fun h => h ∈ of) && of.card = hashes.length

def visit (cfg : ModelConfig) (chunk : Nat) (idx : OldIndex) (t : Tally) (f : String × Bytes) : Tally :=
  let hashes := fixedHashes hashChunk f.2 chunk
  let oldHere := idx.perFile.lookup f.1
  let lookup := match cfg.scope with
    | .perFile => oldHere.getD ∅
    | .global => idx.global
  let cost := fileCost hashChunk zstd cfg chunk lookup f.2
  let t := { t with
    seenPaths := t.seenPaths ++ [f.1]
    newTotal := t.newTotal + f.2.length
    totalChunks := t.totalChunks + hashes.length }
  if samePathMatch hashChunk idx chunk f then { t with unchanged := t.unchanged + 1 }
  else
    let oldSize := (idx.oldSizes.lookup f.1).getD 0
    { t with
      newChunks := t.newChunks + cost.new
      downloadRaw := t.downloadRaw + cost.raw
      downloadCompressed := t.downloadCompressed + cost.compressed
      rebuildRead := t.rebuildRead + oldSize
      rebuildWrite := t.rebuildWrite + f.2.length
      files := t.files ++ [{
        path := f.1
        status := if oldHere.isNone then .new else .modified
        isPack := isPack f.1
        oldSize
        newSize := f.2.length
        totalChunks := hashes.length
        newChunks := cost.new
        downloadRaw := cost.raw
        downloadCompressed := cost.compressed
        changedChunkIndices := cost.changed }] }

/-- Run the fixed-chunk model over a transition. -/
def estimate (old new : Build) (cfg : ModelConfig) (keep : String → Bool) : Estimate :=
  let chunk := max cfg.chunkSize 1
  let sides := relabel old new
  let idx := indexOld hashChunk cfg chunk (kept keep sides.1)
  let t := (kept keep sides.2).foldl (visit hashChunk zstd cfg chunk idx) Tally.start
  let deletedPaths := ((idx.oldSizes.map Prod.fst).filter fun p => p ∉ t.seenPaths).mergeSort
  let files := t.files.mergeSort fun a b => b.downloadCompressed ≤ a.downloadCompressed
  { chunkSize := chunk
    compression := cfg.compression.label
    scope := cfg.scope.label
    hash := "blake3"
    oldSizeBytes := idx.total
    newSizeBytes := t.newTotal
    filesOld := idx.oldSizes.length
    filesNew := t.seenPaths.dedup.length
    filesUnchanged := t.unchanged
    filesModified := (files.filter fun f => f.status = .modified).length
    filesAdded := (files.filter fun f => f.status = .new).length
    filesDeleted := deletedPaths.length
    deletedPaths
    totalChunksNew := t.totalChunks
    newOrChangedChunks := t.newChunks
    estimatedDownloadRaw := t.downloadRaw
    estimatedDownloadCompressed := t.downloadCompressed
    rebuildReadBytes := t.rebuildRead
    rebuildWriteBytes := t.rebuildWrite
    files }

end Code

section Spec
variable (hashChunk : Bytes → ChunkHash)

/-- No two chunks of these files have one hash. -/
def Apart (chunk : Nat) (files : List (String × Bytes)) : Prop :=
  ∀ c ∈ files.flatMap (fun f => cut chunk f.2), ∀ d ∈ files.flatMap (fun f => cut chunk f.2),
    hashChunk c = hashChunk d → c = d

/-- The chunks in which a file of the new build may find its own. -/
def lookupSet (scope : Scope) (chunk : Nat) (old : List (String × Bytes)) (path : String) : List Bytes :=
  match scope with
  | .perFile => ((old.lookup path).map (cut chunk)).getD []
  | .global => old.flatMap fun f => cut chunk f.2

def newPieces (scope : Scope) (chunk : Nat) (old : List (String × Bytes)) (f : String × Bytes) : List Bytes :=
  (cut chunk f.2).filter fun c => c ∉ lookupSet scope chunk old f.1

/-- The estimate says of the new build what is so. -/
structure Truthful (scope : Scope) (chunk : Nat) (old new : List (String × Bytes)) (e : Estimate) : Prop where
  unchanged : ∀ f ∈ new, f.1 ∉ e.files.map FileEstimate.path ↔ f ∈ old
  listed : e.files.map FileEstimate.path ⊆ new.map Prod.fst
  once : (e.files.map FileEstimate.path).Nodup
  status : ∀ x ∈ e.files, x.status = if x.path ∈ old.map Prod.fst then .modified else .new
  total : e.filesUnchanged + e.files.length = new.length ∧ e.filesNew = new.length
  costs : ∀ x ∈ e.files, ∀ data, (x.path, data) ∈ new →
    x.newChunks = (newPieces scope chunk old (x.path, data)).length ∧
      x.downloadRaw = ((newPieces scope chunk old (x.path, data)).map List.length).sum

/-- A content that stayed has no chunk twice, and one that changed is no other arrangement of
the chunks of the old one, each of them different. -/
def Plain (chunk : Nat) (o b : Bytes) : Prop :=
  (o = b → (cut chunk o).Nodup) ∧
    (o ≠ b → o.length = b.length → (cut chunk o).Nodup → ∃ c ∈ cut chunk b, c ∉ cut chunk o)

end Spec

section Cost
variable {hashChunk : Bytes → ChunkHash} {zstd : Int → Bytes → Option Nat} {cfg : ModelConfig} {chunk : Nat}

theorem fileCost_eq (lookup : Finset ChunkHash) (data : Bytes) :
    (fileCost hashChunk zstd cfg chunk lookup data).new =
        ((cut chunk data).filter fun c => hashChunk c ∉ lookup).length ∧
      (fileCost hashChunk zstd cfg chunk lookup data).raw =
        (((cut chunk data).filter fun c => hashChunk c ∉ lookup).map List.length).sum := by
  have fold (pieces : List Bytes) (k : Nat) (cost : FileCost) :
      ((pieces.zipIdx k).foldl (addChunk hashChunk zstd cfg lookup) cost).new =
          cost.new + (pieces.filter fun c => hashChunk c ∉ lookup).length ∧
        ((pieces.zipIdx k).foldl (addChunk hashChunk zstd cfg lookup) cost).raw =
          cost.raw + ((pieces.filter fun c => hashChunk c ∉ lookup).map List.length).sum := by
    induction pieces generalizing k cost with
    | nil => simp
    | cons piece pieces ih =>
        rw [List.zipIdx_cons, List.foldl_cons, (ih _ _).1, (ih _ _).2, addChunk]
        by_cases known : hashChunk piece ∈ lookup
        · simp [known]
        · simp [known]
          omega
  obtain ⟨new, raw⟩ := fold (cut chunk data) 0 ⟨0, 0, 0, []⟩
  rw [Nat.zero_add] at new raw
  exact ⟨new, raw⟩

theorem cut_length {a b : Bytes} (same : a.length = b.length) : (cut chunk a).length = (cut chunk b).length := by
  have fuel (n : Nat) (a b : Bytes) (same : a.length = b.length) :
      (Signature.cutFrom chunk n a).length = (Signature.cutFrom chunk n b).length := by
    induction n generalizing a b with
    | zero => rfl
    | succ n ih =>
        cases a with
        | nil =>
            rw [List.length_eq_zero_iff.mp same.symm]
        | cons x a =>
            cases b with
            | nil => cases same
            | cons y b =>
                rw [Signature.cutFrom, Signature.cutFrom, List.length_cons, List.length_cons, ih]
                rw [List.length_drop, List.length_drop, same]
  rw [cut, cut, same]
  exact fuel b.length a b same

end Cost

section Match
variable {hashChunk : Bytes → ChunkHash} {cfg : ModelConfig} {chunk : Nat} {old new : List (String × Bytes)}
  {path : String} {o b : Bytes}

theorem mem_hashes (apart : Apart hashChunk chunk (old ++ new)) {pieces : List Bytes} {c : Bytes}
    (inside : ∀ p ∈ c :: pieces, p ∈ (old ++ new).flatMap fun f => cut chunk f.2) :
    hashChunk c ∈ pieces.map hashChunk ↔ c ∈ pieces := by
  refine ⟨fun mem => ?_, List.mem_map_of_mem⟩
  obtain ⟨d, there, same⟩ := List.mem_map.mp mem
  rwa [← apart d (inside d (.tail _ there)) c (inside c (.head _)) same]

theorem pieces_inside {f : String × Bytes} {files : List (String × Bytes)} (mem : f ∈ files) {p : Bytes}
    (piece : p ∈ cut chunk f.2) : p ∈ files.flatMap fun f => cut chunk f.2 := List.mem_flatMap.mpr ⟨f, mem, piece⟩

/-- The test in terms of the bytes. -/
theorem samePathMatch_iff (apart : Apart hashChunk chunk (old ++ new)) (distinct : (old.map Prod.fst).Nodup)
    (mem : (path, b) ∈ new) : samePathMatch hashChunk (indexOld hashChunk cfg chunk old) chunk (path, b) = true ↔
      ∃ o, (path, o) ∈ old ∧ o.length = b.length ∧ (cut chunk o).Nodup ∧ ∀ c ∈ cut chunk b, c ∈ cut chunk o := by
  rw [samePathMatch, indexOld]
  dsimp only
  rw [lookup_mapped fun data => (fixedHashes hashChunk data chunk).toFinset, lookup_mapped List.length]
  cases found : old.lookup path with
  | none =>
      refine iff_of_false Bool.false_ne_true ?_
      rintro ⟨o, there, -⟩
      rw [(lookup_iff distinct).mpr there] at found
      cases found
  | some o =>
      have there := (lookup_iff distinct).mp found
      have insideOld : ∀ p ∈ cut chunk o, p ∈ (old ++ new).flatMap fun f => cut chunk f.2 := fun p piece =>
        pieces_inside (List.mem_append_left new there) piece
      have insideNew : ∀ p ∈ cut chunk b, p ∈ (old ++ new).flatMap fun f => cut chunk f.2 := fun p piece =>
        pieces_inside (List.mem_append_right old mem) piece
      have known : (∀ h ∈ fixedHashes hashChunk b chunk, h ∈ (fixedHashes hashChunk o chunk).toFinset) ↔
          ∀ c ∈ cut chunk b, c ∈ cut chunk o := by
        rw [fixedHashes, fixedHashes, List.forall_mem_map]
        refine forall_congr' fun c => forall_congr' fun piece => ?_
        rw [List.mem_toFinset, mem_hashes apart fun p there => ?_]
        rcases List.mem_cons.mp there with rfl | there
        · exact insideNew p piece
        · exact insideOld p there
      have counted (same : o.length = b.length) : (fixedHashes hashChunk o chunk).toFinset.card =
          (fixedHashes hashChunk b chunk).length ↔ (cut chunk o).Nodup := by
        have len : (fixedHashes hashChunk b chunk).length = (fixedHashes hashChunk o chunk).length := by
          rw [fixedHashes, fixedHashes, List.length_map, List.length_map, cut_length same]
        have card : (fixedHashes hashChunk o chunk).toFinset.card = (fixedHashes hashChunk o chunk).length ↔
            (fixedHashes hashChunk o chunk).Nodup := by
          have := Multiset.toFinset_card_eq_card_iff_nodup (m := (fixedHashes hashChunk o chunk : Multiset ChunkHash))
          rwa [Multiset.coe_card, Multiset.coe_nodup] at this
        rw [len, card, fixedHashes]
        refine ⟨List.Nodup.of_map hashChunk, fun once => once.map_on fun c cm d dm same => ?_⟩
        exact apart c (insideOld c cm) d (insideOld d dm) same
      have sizes : (some o.length = some b.length) ↔ o.length = b.length := by rw [Option.some.injEq]
      simp only [Option.map_some, Bool.and_eq_true, decide_eq_true_iff, List.all_eq_true, known, sizes]
      constructor
      · rintro ⟨⟨same, all⟩, card⟩
        exact ⟨o, there, same, (counted same).mp card, all⟩
      · rintro ⟨o', there', same, once, all⟩
        rw [(lookup_iff distinct).mpr there', Option.some.injEq] at found
        subst found
        exact ⟨⟨same, all⟩, (counted same).mpr once⟩

/-- On one path the test tells equal bytes exactly where the contents are plain. -/
theorem samePathMatch_exact (apart : Apart hashChunk chunk (old ++ new)) (distinct : (old.map Prod.fst).Nodup)
    (mem : (path, b) ∈ new) :
    (samePathMatch hashChunk (indexOld hashChunk cfg chunk old) chunk (path, b) = true ↔ (path, b) ∈ old) ↔
      ∀ o, (path, o) ∈ old → Plain chunk o b := by
  rw [samePathMatch_iff apart distinct mem]
  have only {o o' : Bytes} (there : (path, o) ∈ old) (there' : (path, o') ∈ old) : o = o' := by
    rw [← lookup_iff distinct] at there there'
    rw [there] at there'
    exact Option.some.inj there'
  constructor
  · intro exact_ o there
    refine ⟨?_, fun differ same once => ?_⟩
    · rintro rfl
      obtain ⟨o', there', -, once, -⟩ := exact_.mpr there
      rwa [only there there']
    · by_contra none_
      have all : ∀ c ∈ cut chunk b, c ∈ cut chunk o := fun c piece => by
        by_contra out
        exact none_ ⟨c, piece, out⟩
      exact differ (only there (exact_.mp ⟨o, there, same, once, all⟩))
  · intro plain
    constructor
    · rintro ⟨o, there, same, once, all⟩
      by_cases equal : o = b
      · exact equal ▸ there
      · obtain ⟨c, piece, out⟩ := (plain o there).2 equal same once
        exact absurd (all c piece) out
    · intro there
      exact ⟨b, there, rfl, (plain b there).1 rfl, fun c piece => piece⟩

end Match

section Run
variable {hashChunk : Bytes → ChunkHash} {zstd : Int → Bytes → Option Nat} {cfg : ModelConfig} {chunk : Nat}
  {old new : List (String × Bytes)} {idx : OldIndex}

/-- The old chunks that a file of the new build is looked up in. -/
def lookupHashes (cfg : ModelConfig) (idx : OldIndex) (path : String) : Finset ChunkHash :=
  match cfg.scope with
  | .perFile => (idx.perFile.lookup path).getD ∅
  | .global => idx.global

/-- What is listed of a file. -/
def row (hashChunk : Bytes → ChunkHash) (zstd : Int → Bytes → Option Nat) (cfg : ModelConfig) (chunk : Nat)
    (idx : OldIndex) (f : String × Bytes) : FileEstimate :=
  let cost := fileCost hashChunk zstd cfg chunk (lookupHashes cfg idx f.1) f.2
  { path := f.1
    status := if (idx.perFile.lookup f.1).isNone then .new else .modified
    isPack := isPack f.1
    oldSize := (idx.oldSizes.lookup f.1).getD 0
    newSize := f.2.length
    totalChunks := (fixedHashes hashChunk f.2 chunk).length
    newChunks := cost.new
    downloadRaw := cost.raw
    downloadCompressed := cost.compressed
    changedChunkIndices := cost.changed }

theorem visit_spec (t : Tally) (f : String × Bytes) :
    (visit hashChunk zstd cfg chunk idx t f).seenPaths = t.seenPaths ++ [f.1] ∧
      (visit hashChunk zstd cfg chunk idx t f).files =
        t.files ++ (if samePathMatch hashChunk idx chunk f then [] else [row hashChunk zstd cfg chunk idx f]) ∧
      (visit hashChunk zstd cfg chunk idx t f).unchanged =
        t.unchanged + if samePathMatch hashChunk idx chunk f then 1 else 0 := by
  rw [visit]
  dsimp only
  by_cases same : samePathMatch hashChunk idx chunk f = true
  · rw [if_pos same, if_pos same, if_pos same, List.append_nil]
    exact ⟨rfl, rfl, rfl⟩
  · rw [if_neg same, if_neg same, if_neg same]
    exact ⟨rfl, rfl, rfl⟩

/-- The files that are listed, in the order of the walk. -/
def changedFiles (hashChunk : Bytes → ChunkHash) (chunk : Nat) (idx : OldIndex) (new : List (String × Bytes)) :
    List (String × Bytes) := new.filter fun f => !samePathMatch hashChunk idx chunk f

theorem run_spec (new : List (String × Bytes)) (t : Tally) :
    (new.foldl (visit hashChunk zstd cfg chunk idx) t).seenPaths = t.seenPaths ++ new.map Prod.fst ∧
      (new.foldl (visit hashChunk zstd cfg chunk idx) t).files =
        t.files ++ (changedFiles hashChunk chunk idx new).map (row hashChunk zstd cfg chunk idx) ∧
      (new.foldl (visit hashChunk zstd cfg chunk idx) t).unchanged + (changedFiles hashChunk chunk idx new).length =
        t.unchanged + new.length := by
  induction new generalizing t with
  | nil => simp [changedFiles]
  | cons f new ih =>
      obtain ⟨seen, files, unchanged⟩ := @visit_spec hashChunk zstd cfg chunk idx t f
      obtain ⟨seen', files', unchanged'⟩ := ih (visit hashChunk zstd cfg chunk idx t f)
      rw [List.foldl_cons, seen', seen, files', files]
      rw [unchanged] at unchanged'
      by_cases same : samePathMatch hashChunk idx chunk f = true
      · have rest : changedFiles hashChunk chunk idx (f :: new) = changedFiles hashChunk chunk idx new := by
          rw [changedFiles, List.filter_cons_of_neg (by rw [same]; decide), ← changedFiles]
        rw [if_pos same] at unchanged' ⊢
        rw [rest, List.length_cons]
        exact ⟨by simp, by simp, by omega⟩
      · have rest : changedFiles hashChunk chunk idx (f :: new) = f :: changedFiles hashChunk chunk idx new := by
          rw [changedFiles, List.filter_cons_of_pos (by simpa using same), ← changedFiles]
        rw [if_neg same] at unchanged' ⊢
        rw [rest, List.length_cons, List.length_cons]
        exact ⟨by simp, by simp, by omega⟩

theorem lookupHashes_iff (apart : Apart hashChunk chunk (old ++ new)) {path : String} {data c : Bytes}
    (mem : (path, data) ∈ new) (piece : c ∈ cut chunk data) :
    hashChunk c ∈ lookupHashes cfg (indexOld hashChunk cfg chunk old) path ↔ c ∈ lookupSet cfg.scope chunk old path := by
  have inside {pieces : List Bytes} (sub : ∀ p ∈ pieces, p ∈ old.flatMap fun f => cut chunk f.2) :
      ∀ p ∈ c :: pieces, p ∈ (old ++ new).flatMap fun f => cut chunk f.2 := by
    intro p there
    rw [List.flatMap_append]
    rcases List.mem_cons.mp there with rfl | there
    · exact List.mem_append_right _ (pieces_inside mem piece)
    · exact List.mem_append_left _ (sub p there)
  cases scope : cfg.scope with
  | perFile =>
      simp only [lookupHashes, lookupSet, scope, indexOld]
      rw [lookup_mapped fun data => (fixedHashes hashChunk data chunk).toFinset]
      cases found : old.lookup path with
      | none => simp
      | some o =>
          have there := mem_of_lookup found
          rw [Option.map_some, Option.map_some, Option.getD_some, Option.getD_some, List.mem_toFinset, fixedHashes]
          exact mem_hashes apart (inside fun p part => pieces_inside there part)
  | global =>
      simp only [lookupHashes, lookupSet, scope, indexOld, if_true, List.mem_toFinset, fixedHashes]
      rw [← List.map_flatMap]
      exact mem_hashes apart (inside fun p part => part)

theorem row_costs (apart : Apart hashChunk chunk (old ++ new)) {f : String × Bytes} (mem : f ∈ new) :
    (row hashChunk zstd cfg chunk (indexOld hashChunk cfg chunk old) f).newChunks =
        (newPieces cfg.scope chunk old f).length ∧
      (row hashChunk zstd cfg chunk (indexOld hashChunk cfg chunk old) f).downloadRaw =
        ((newPieces cfg.scope chunk old f).map List.length).sum := by
  have same : (cut chunk f.2).filter (fun c => hashChunk c ∉ lookupHashes cfg (indexOld hashChunk cfg chunk old) f.1) =
      newPieces cfg.scope chunk old f := by
    refine List.filter_congr fun c piece => ?_
    exact decide_eq_decide.mpr (not_congr (lookupHashes_iff apart mem piece))
  obtain ⟨count, raw⟩ := @fileCost_eq hashChunk zstd cfg chunk
    (lookupHashes cfg (indexOld hashChunk cfg chunk old) f.1) f.2
  rw [same] at count raw
  exact ⟨count, raw⟩

end Run

section Theorem
variable {hashChunk : Bytes → ChunkHash} {zstd : Int → Bytes → Option Nat}

theorem relabel_distinct (old new : Build) : ((relabel old new).1.map Prod.fst).Nodup ∧
    ((relabel old new).2.map Prod.fst).Nodup := by
  have walked (b : Build) : (b.walk.map Prod.fst).Nodup := by
    cases b with
    | artifact name content => exact List.nodup_singleton name
    | directory tree => exact tree.distinct
  cases old with
  | artifact name content =>
      cases new with
      | artifact name' content' => exact ⟨List.nodup_singleton _, List.nodup_singleton _⟩
      | directory tree => exact ⟨walked (.artifact name content), walked (.directory tree)⟩
  | directory tree => exact ⟨walked (.directory tree), walked new⟩

theorem kept_distinct {files : List (String × Bytes)} (keep : String → Bool) (distinct : (files.map Prod.fst).Nodup) :
    ((kept keep files).map Prod.fst).Nodup := distinct.sublist (List.filter_sublist.map Prod.fst)

variable (hashChunk zstd) in
/-- The estimate says what is so exactly when every file that both builds have is plain. -/
theorem estimate_truthful_iff (old new : Build) (cfg : ModelConfig) (keep : String → Bool)
    (apart : Apart hashChunk (max cfg.chunkSize 1) (kept keep (relabel old new).1 ++ kept keep (relabel old new).2)) :
    Truthful cfg.scope (max cfg.chunkSize 1) (kept keep (relabel old new).1) (kept keep (relabel old new).2)
        (estimate hashChunk zstd old new cfg keep) ↔
      ∀ path o b, (path, o) ∈ kept keep (relabel old new).1 → (path, b) ∈ kept keep (relabel old new).2 →
        Plain (max cfg.chunkSize 1) o b := by
  have distinct := kept_distinct keep (relabel_distinct old new).1
  have distinct' := kept_distinct keep (relabel_distinct old new).2
  rw [estimate]
  generalize kept keep (relabel old new).1 = before at apart distinct ⊢
  generalize kept keep (relabel old new).2 = after at apart distinct' ⊢
  generalize max cfg.chunkSize 1 = chunk at apart ⊢
  obtain ⟨seen, files, count⟩ := @run_spec hashChunk zstd cfg chunk (indexOld hashChunk cfg chunk before) after Tally.start
  rw [Tally.start] at seen files count
  rw [List.nil_append] at seen files
  rw [Nat.zero_add] at count
  rw [Tally.start]
  generalize after.foldl (visit hashChunk zstd cfg chunk (indexOld hashChunk cfg chunk before))
    ⟨[], 0, 0, 0, 0, 0, 0, 0, 0, []⟩ = t at seen files count ⊢
  have perm := List.mergeSort_perm t.files fun a b => b.downloadCompressed ≤ a.downloadCompressed
  have paths : (t.files.mergeSort fun a b => b.downloadCompressed ≤ a.downloadCompressed).map FileEstimate.path
      |>.Perm ((changedFiles hashChunk chunk (indexOld hashChunk cfg chunk before) after).map Prod.fst) := by
    refine (perm.map _).trans (.of_eq ?_)
    rw [files, List.map_map]
    rfl
  have unlisted {f : String × Bytes} (mem : f ∈ after) :
      f.1 ∉ (t.files.mergeSort fun a b => b.downloadCompressed ≤ a.downloadCompressed).map FileEstimate.path ↔
        samePathMatch hashChunk (indexOld hashChunk cfg chunk before) chunk f = true := by
    rw [paths.mem_iff, changedFiles]
    constructor
    · intro out
      by_contra differs
      exact out (List.mem_map_of_mem (List.mem_filter.mpr ⟨mem, by simpa using differs⟩))
    · intro same inside
      obtain ⟨g, there, name⟩ := List.mem_map.mp inside
      obtain ⟨there, differs⟩ := List.mem_filter.mp there
      rw [List.inj_on_of_nodup_map distinct' there mem name, same] at differs
      cases differs
  have rows {x : FileEstimate} (mem : x ∈ t.files.mergeSort fun a b => b.downloadCompressed ≤ a.downloadCompressed) :
      ∃ f ∈ after, x = row hashChunk zstd cfg chunk (indexOld hashChunk cfg chunk before) f := by
    rw [perm.mem_iff, files] at mem
    obtain ⟨f, there, rfl⟩ := List.mem_map.mp mem
    exact ⟨f, (List.mem_filter.mp there).1, rfl⟩
  constructor
  · rintro truthful path o b there mem
    refine (@samePathMatch_exact hashChunk cfg chunk before after path b apart distinct mem).mp ?_ o there
    rw [← unlisted mem]
    exact truthful.unchanged (path, b) mem
  · intro plain
    refine ⟨fun f mem => ?_, fun p mem => ?_, ?_, fun x mem => ?_, ⟨?_, ?_⟩, fun x mem data there => ?_⟩
    · rw [unlisted mem]
      exact (samePathMatch_exact apart distinct mem).mpr fun o there => plain f.1 o f.2 there mem
    · obtain ⟨f, there, rfl⟩ := List.mem_map.mp (paths.mem_iff.mp mem)
      exact List.mem_map_of_mem (List.mem_filter.mp there).1
    · exact paths.nodup_iff.mpr (distinct'.sublist (List.filter_sublist.map Prod.fst))
    · obtain ⟨f, there, rfl⟩ := rows mem
      rw [row, indexOld]
      dsimp only
      rw [lookup_mapped fun data => (fixedHashes hashChunk data chunk).toFinset, Option.isNone_map]
      cases found : before.lookup f.1 with
      | none => rw [if_neg (KeyedList.lookup_none_iff.mp found)]; rfl
      | some o => rw [if_pos (List.mem_map_of_mem (mem_of_lookup found))]; rfl
    · rw [perm.length_eq, files, List.length_map]
      exact count
    · rw [seen, distinct'.dedup, List.length_map]
    · obtain ⟨f, mem', rfl⟩ := rows mem
      have same : f = (f.1, data) := List.inj_on_of_nodup_map distinct' mem' there rfl
      exact same ▸ row_costs apart mem'

/-- A hash that tells short contents by their first byte. -/
def firstByte (b : Bytes) : ChunkHash := ⟨List.replicate 32 (b.headD 0), List.length_replicate⟩

def oneFile (content : Bytes) : Build := .directory ⟨[("x", content)], List.nodup_singleton "x"⟩

def byteChunks : ModelConfig := ⟨1, .none, .perFile⟩

theorem apart_firstByte (files : List (String × Bytes)) : Apart firstByte 1 files := by
  have single {c : Bytes} (mem : c ∈ files.flatMap fun f => cut 1 f.2) : ∃ x, c = [x] := by
    obtain ⟨f, -, piece⟩ := List.mem_flatMap.mp mem
    obtain ⟨some_, short⟩ := Signature.cut_sized Nat.one_pos f.2 c piece
    exact List.length_eq_one_iff.mp (Nat.le_antisymm short (List.length_pos_iff.mpr some_))
  intro c mem d mem' same
  obtain ⟨x, rfl⟩ := single mem
  obtain ⟨y, rfl⟩ := single mem'
  have bytes : List.replicate 32 x = List.replicate 32 y := congrArg Subtype.val same
  rw [List.replicate_inj] at bytes
  rcases bytes.2 with none_ | rfl
  · cases none_
  · rfl

/-- One byte of two changes. -/
theorem estimate_truthful_changed :
    Apart firstByte 1 (kept (fun _ => true) (relabel (oneFile [1, 2]) (oneFile [1, 3])).1 ++
        kept (fun _ => true) (relabel (oneFile [1, 2]) (oneFile [1, 3])).2) ∧
      Truthful .perFile 1 [("x", [1, 2])] [("x", [1, 3])]
        (estimate firstByte (fun _ _ => none) (oneFile [1, 2]) (oneFile [1, 3]) byteChunks fun _ => true) := by
  have apart : Apart firstByte 1 ([("x", [1, 2])] ++ [("x", [1, 3])]) := apart_firstByte _
  refine ⟨apart, (estimate_truthful_iff firstByte (fun _ _ => none) (oneFile [1, 2]) (oneFile [1, 3]) byteChunks
    (fun _ => true) apart).mpr ?_⟩
  intro path o b there mem
  obtain ⟨rfl, rfl⟩ : path = "x" ∧ o = [1, 2] := by simpa [relabel, kept, oneFile, Build.walk] using there
  obtain rfl : b = [1, 3] := by simpa [relabel, kept, oneFile, Build.walk] using mem
  exact ⟨by decide, fun _ _ _ => ⟨[3], by decide, by decide⟩⟩

/-- The same two bytes are listed as modified, and two that changed places are unchanged. -/
theorem not_estimate_truthful :
    ¬ Truthful .perFile 1 [("x", [1, 1])] [("x", [1, 1])]
        (estimate firstByte (fun _ _ => none) (oneFile [1, 1]) (oneFile [1, 1]) byteChunks fun _ => true) ∧
      ¬ Truthful .perFile 1 [("x", [1, 2])] [("x", [2, 1])]
        (estimate firstByte (fun _ _ => none) (oneFile [1, 2]) (oneFile [2, 1]) byteChunks fun _ => true) := by
  have apart : Apart firstByte 1 ([("x", [1, 1])] ++ [("x", [1, 1])]) := apart_firstByte _
  have apart' : Apart firstByte 1 ([("x", [1, 2])] ++ [("x", [2, 1])]) := apart_firstByte _
  constructor
  · intro truthful
    have plain := (estimate_truthful_iff firstByte (fun _ _ => none) (oneFile [1, 1]) (oneFile [1, 1]) byteChunks
      (fun _ => true) apart).mp truthful "x" [1, 1] [1, 1] (.head _) (.head _)
    have twice := plain.1 rfl
    revert twice
    decide
  · intro truthful
    have plain := (estimate_truthful_iff firstByte (fun _ _ => none) (oneFile [1, 2]) (oneFile [2, 1]) byteChunks
      (fun _ => true) apart').mp truthful "x" [1, 2] [2, 1] (.head _) (.head _)
    obtain ⟨c, piece, out⟩ := plain.2 (by decide) rfl (by decide)
    revert c
    decide

end Theorem
end Cavs.Steampipe
