import Cavs.WriterFaults

/-!
# Adding chunks after a call failed

A call that fails may leave a hash in the index whose chunk is not in the table. While no
payload with such a hash is added again, every index leads to the payload it was returned
for, and the finished file is read back.
-/
namespace Cavs
open FileProg (Bytes)
open Outcome (ok_bind ok_of_bindO pure_eq)
open List (append_assoc append_nil lookup_append mem_append mem_append_right mem_cons mem_cons_self
  mem_singleton zip_cons_cons)

section Calls
variable (env : ContainerEnv)

namespace BufferedWriter
variable (w : BufferedWriter)

/-- One call, and what it returned for which payloads. -/
def step (faults : CallFaults) : WriterCall → FormatResult ChunkLog × BufferedWriter
  | .addChunk raw => andThen (w.addChunk env faults raw) fun index w => (.ok [(index, raw)], w)
  | .addChunksParallel data ranges =>
      andThen (ContainerWriter.slices data ranges, w) fun raws w =>
        andThen (w.addChunksParallel env faults data ranges) fun indices w => (.ok (indices.zip raws), w)
  | call =>
      match w.writer.step env call with
      | .ok (writer, log) => (.ok log, { w with writer })
      | .error e => (.error e, w)
      | .panics => (.panics, w)

/-- The caller goes on after an error. -/
def run (w : BufferedWriter) : List (WriterCall × CallFaults) → ChunkLog × BufferedWriter
  | [] => ([], w)
  | (call, faults) :: rest =>
      match w.step env faults call with
      | (.ok first, w) =>
          let (later, w) := run w rest
          (first ++ later, w)
      | (.error _, w) => run w rest
      | (.panics, w) => ([], w)

/-- The file holds what was written, though the directory counts only what was taken into
the table. -/
def finish : FormatResult (Bytes × PackStats) := do
  let (_, stats) ← w.writer.finish env
  let tables := w.writer.tables env
  let sb := superblockOf env w.writer.compression w.writer.timescale w.writer.assetUuid w.writer.data tables
  let file := containerHead sb ++ (w.out ++ (tables.sections.flatMap Prod.snd ++
    (directoryOf env w.writer.data tables).flatMap encodeSectionEntry))
  if 2 ^ 63 ≤ file.length then .error (.io .other) else return (file, stats)

end BufferedWriter

/-- The payloads a call is given. -/
def payloadsOf : WriterCall → List Bytes
  | .addChunk raw => [raw]
  | .addChunksParallel data ranges =>
      match ContainerWriter.slices data ranges with
      | .ok raws => raws
      | _ => []
  | _ => []

/-- The index has a hash whose chunk is not in the table. -/
def Orphaned (w : ContainerWriter) (hash : ChunkHash) : Prop :=
  (w.cas.lookup hash).isSome = true ∧ ∀ c ∈ w.chunks, c.hash ≠ hash

/-- A call that adds nothing whose hash an earlier one left behind, and that leaves no torn
bytes in the file when it fails. -/
structure SoundCall (w : BufferedWriter) (call : WriterCall) (faults : CallFaults) : Prop where
  fresh : ∀ raw ∈ payloadsOf call, ¬ Orphaned w.writer (env.hashChunk raw)
  small : ∀ raw ∈ payloadsOf call, raw.length ≤ maxChunkRaw
  room : w.writer.chunks.length + (payloadsOf call).length ≤ 2 ^ 32
  whole : ∀ fault, faults.write = some fault → fault.kept = 0

def SoundRun (w : BufferedWriter) : List (WriterCall × CallFaults) → Prop
  | [] => True
  | (call, faults) :: rest => SoundCall env w call faults ∧ SoundRun (w.step env faults call).2 rest

end Calls

section Invariant
variable {env : ContainerEnv} {w w' : BufferedWriter} {log : ChunkLog} {raw : Bytes}
  {form : Option (Bytes × UInt32)} {fault left : Option WriteFault} {index : UInt32}

/-- A writer whose index has the chunks of the table and no others. -/
def cleaned (w : ContainerWriter) : ContainerWriter :=
  { w with cas := w.chunks.mapIdx fun k c => (c.hash, UInt32.ofNat k) }

theorem cleaned_eq {w : ContainerWriter} (inv : WriterInv env w log) : cleaned w = w := by
  rw [cleaned, ← inv.cas]

/-- Without the hashes that were left behind, the writer is in step, and the file got what
the data section counts. -/
structure FaultInv (env : ContainerEnv) (w : BufferedWriter) (log : ChunkLog) : Prop where
  inv : WriterInv env (cleaned w.writer) log
  indexed : ∀ c ∈ w.writer.chunks, w.writer.cas.lookup c.hash = (cleaned w.writer).cas.lookup c.hash
  out : w.out = w.writer.data
  compression : w.writer.compression ≤ compressionZstd

theorem FaultInv.lookup (h : FaultInv env w log) {hash : ChunkHash} (fine : ¬ Orphaned w.writer hash) :
    (cleaned w.writer).cas.lookup hash = w.writer.cas.lookup hash := by
  by_cases there : ∃ c ∈ w.writer.chunks, c.hash = hash
  · obtain ⟨c, mem, rfl⟩ := there
    exact (h.indexed c mem).symm
  · have absent : ∀ c ∈ w.writer.chunks, c.hash ≠ hash := fun c mem same => there ⟨c, mem, same⟩
    have unknown : w.writer.cas.lookup hash = none := by
      rw [← Option.not_isSome_iff_eq_none]
      exact fun some => fine ⟨some, absent⟩
    rw [unknown]
    cases found : (cleaned w.writer).cas.lookup hash with
    | none => rfl
    | some i =>
        have listed := KeyedList.mem_of_lookup found
        rw [cleaned, List.mem_mapIdx] at listed
        obtain ⟨k, within, same⟩ := listed
        exact absurd (Prod.mk.inj same).1 (absent _ (List.getElem_mem within))

theorem create_faultInv (uuid : Uuid) (timescale : UInt32) (compress : Bool) :
    FaultInv env (BufferedWriter.create uuid timescale compress) [] := by
  constructor
  · exact create_inv uuid timescale compress
  · intro c mem
    cases mem
  · rfl
  · exact create_compression uuid timescale compress

/-- A payload that is known. -/
theorem FaultInv.known (h : FaultInv env w log) (fine : ¬ Orphaned w.writer (env.hashChunk raw))
    (found : w.writer.cas.lookup (env.hashChunk raw) = some index) :
    FaultInv env (w.referenced raw (env.hashChunk raw)) (log ++ [(index, raw)]) :=
  ⟨h.inv.known ((h.lookup fine).trans found), h.indexed, h.out, h.compression⟩

theorem cleaned_indexes {w : ContainerWriter} {c : ChunkRecord} (mem : c ∈ w.chunks) :
    ((cleaned w).cas.lookup c.hash).isSome = true := by
  obtain ⟨k, within, rfl⟩ := List.getElem_of_mem mem
  rw [List.lookup_isSome_iff]
  refine ⟨_, List.mem_mapIdx.mpr ⟨k, within, rfl⟩, beq_self_eq_true _⟩

theorem cleaned_store {w : ContainerWriter} {hash : ChunkHash} : (cleaned (w.store hash raw form)).cas =
    (cleaned w).cas ++ [(hash, UInt32.ofNat w.chunks.length)] := by
  rw [cleaned, cleaned, ContainerWriter.store, List.mapIdx_append, List.mapIdx_cons, List.mapIdx_nil, Nat.zero_add]

/-- A payload that is new, and was written. -/
theorem FaultInv.fresh (h : FaultInv env w log) (fine : ¬ Orphaned w.writer (env.hashChunk raw))
    (small : raw.length ≤ maxChunkRaw) (good : GoodForm env raw form)
    (put : (w.registered raw (env.hashChunk raw)).store fault (env.hashChunk raw) raw form = (.ok left, w')) :
    FaultInv env w' (log ++ [(UInt32.ofNat w.writer.chunks.length, raw)]) := by
  have put' := store_ok put
  cases put'
  have inv := h.inv.fresh small good rfl
  refine ⟨(cleaned_eq inv).symm ▸ inv, fun c mem => ?_, ?_, h.compression⟩
  · dsimp only
    rw [cleaned_store]
    change (w.writer.cas ++ [(env.hashChunk raw, UInt32.ofNat w.writer.chunks.length)]).lookup c.hash =
      ((cleaned w.writer).cas ++ [(env.hashChunk raw, UInt32.ofNat w.writer.chunks.length)]).lookup c.hash
    rw [lookup_append, lookup_append]
    rcases mem_append.mp mem with old | new
    · rw [h.indexed c old]
    · rw [mem_singleton.mp new, h.lookup fine]
  · exact congrArg (fun bytes => bytes ++ (form.getD (raw, 0)).1) h.out

/-- A hash is left behind by a payload that was not written. -/
theorem FaultInv.left_behind (h : FaultInv env w log) (hash : ChunkHash) : FaultInv env (w.registered raw hash) log := by
  obtain ⟨cas, kept, logged, tracks, segments, dict⟩ := h.inv
  refine ⟨⟨cas, kept, logged, tracks, segments, dict⟩, fun c mem => ?_, h.out, h.compression⟩
  have known : ((cleaned w.writer).cas.lookup c.hash).isSome = true := cleaned_indexes mem
  change (w.writer.cas ++ [(hash, UInt32.ofNat w.writer.chunks.length)]).lookup c.hash = (cleaned w.writer).cas.lookup c.hash
  rw [lookup_append, h.indexed c mem, Option.or_of_isSome known]

/-- A payload that was written leaves no hash behind. -/
theorem not_orphaned_store {hash other : ChunkHash} (fine : ¬ Orphaned w.writer other)
    (put : (w.registered raw hash).store fault hash raw form = (.ok left, w')) : ¬ Orphaned w'.writer other := by
  have put' := store_ok put
  cases put'
  rintro ⟨known, absent⟩
  change ((w.writer.cas ++ [(hash, UInt32.ofNat w.writer.chunks.length)]).lookup other).isSome = true at known
  have old : ∀ c ∈ w.writer.chunks, c.hash ≠ other := fun c mem => absent c (List.mem_append_left _ mem)
  have differs : hash ≠ other := absent _ (mem_append_right _ (mem_singleton.mpr rfl))
  rw [lookup_append, KeyedList.lookup_cons_ne differs.symm, List.lookup_nil, Option.or_none] at known
  exact fine ⟨known, old⟩

/-- What a call that adds payloads comes to: those it took are logged. -/
structure Added (env : ContainerEnv) (w : BufferedWriter) (log : ChunkLog) (payloads : List Bytes)
    (w' : BufferedWriter) (more : ChunkLog) : Prop where
  inv : FaultInv env w' (log ++ more)
  passed : ∀ p ∈ more, p.2 ∈ payloads
  room : w'.writer.chunks.length ≤ w.writer.chunks.length + payloads.length

theorem Added.none (h : FaultInv env w log) (payloads : List Bytes) : Added env w log payloads w [] := by
  refine ⟨?_, nofun, Nat.le_add_right _ _⟩
  rw [append_nil]
  exact h

theorem Added.left_behind (h : FaultInv env w log) (hash : ChunkHash) (payloads : List Bytes) :
    Added env w log payloads (w.registered raw hash) [] := by
  refine ⟨?_, nofun, Nat.le_add_right _ _⟩
  rw [append_nil]
  exact h.left_behind hash

theorem Added.cons {payloads : List Bytes} {w'' : BufferedWriter} {more : ChunkLog}
    (first : Added env w log [raw] w' [(index, raw)])
    (rest : Added env w' (log ++ [(index, raw)]) payloads w'' more) :
    Added env w log (raw :: payloads) w'' ((index, raw) :: more) := by
  constructor
  · have inv := rest.inv
    rw [append_assoc] at inv
    exact inv
  · intro p mem
    rcases mem_cons.mp mem with rfl | mem
    · exact mem_cons_self
    · exact List.mem_cons_of_mem raw (rest.passed p mem)
  · have room := first.room
    have room' := rest.room
    rw [List.length_singleton] at room
    rw [List.length_cons]
    omega

theorem Added.known (h : FaultInv env w log) (fine : ¬ Orphaned w.writer (env.hashChunk raw))
    (found : w.writer.cas.lookup (env.hashChunk raw) = some index) :
    Added env w log [raw] (w.referenced raw (env.hashChunk raw)) [(index, raw)] := by
  refine ⟨h.known fine found, ?_, Nat.le_add_right _ _⟩
  intro p mem
  rw [mem_singleton.mp mem]
  exact mem_singleton.mpr rfl

theorem Added.fresh (h : FaultInv env w log) (fine : ¬ Orphaned w.writer (env.hashChunk raw))
    (small : raw.length ≤ maxChunkRaw) (good : GoodForm env raw form)
    (put : (w.registered raw (env.hashChunk raw)).store fault (env.hashChunk raw) raw form = (.ok left, w')) :
    Added env w log [raw] w' [(UInt32.ofNat w.writer.chunks.length, raw)] := by
  refine ⟨h.fresh fine small good put, ?_, ?_⟩
  · intro p mem
    rw [mem_singleton.mp mem]
    exact mem_singleton.mpr rfl
  · have put' := store_ok put
    cases put'
    exact (List.length_append ..).le

/-- A write that fails and leaves no torn bytes changes nothing. -/
theorem store_error {hash : ChunkHash} {e : FormatError} (whole : ∀ f, fault = some f → f.kept = 0)
    (put : w.store fault hash raw form = (.error e, w')) : w' = w := by
  rcases fault with _ | ⟨_ | after, error, kept⟩
  · cases put
  · cases put
    obtain rfl : kept = 0 := whole _ rfl
    rw [List.take_zero, append_nil]
  · cases put

theorem store_ne_panics {hash : ChunkHash} : w.store fault hash raw form ≠ (.panics, w') := by
  rcases fault with _ | ⟨_ | after, error, kept⟩ <;> nofun

theorem store_whole {hash : ChunkHash} (whole : ∀ f, fault = some f → f.kept = 0)
    (put : w.store fault hash raw form = (.ok left, w')) : ∀ f, left = some f → f.kept = 0 := by
  rcases fault with _ | ⟨_ | after, error, kept⟩
  · cases put
    nofun
  · cases put
  · cases put
    rintro f ⟨⟩
    exact whole ⟨after + 1, error, kept⟩ rfl

end Invariant

section Run
variable {env : ContainerEnv} {w w' : BufferedWriter} {log : ChunkLog} {raw : Bytes} {faults : CallFaults}

theorem addChunk_added (h : FaultInv env w log) (fine : ¬ Orphaned w.writer (env.hashChunk raw))
    (small : raw.length ≤ maxChunkRaw) (whole : ∀ f, faults.write = some f → f.kept = 0) :
    ∃ more, Added env w log [raw] (w.addChunk env faults raw).2 more ∧
      ∀ index, (w.addChunk env faults raw).1 = .ok index → more = [(index, raw)] := by
  cases found : w.writer.cas.lookup (env.hashChunk raw) with
  | some index =>
      rw [BufferedWriter.addChunk_known found]
      refine ⟨_, Added.known h fine found, ?_⟩
      rintro _ ⟨⟩
      rfl
  | none =>
      rw [BufferedWriter.addChunk_fresh found]
      cases formed : w.writer.formOf (env.failing faults.zstd) raw with
      | error _ | panics => exact ⟨[], Added.left_behind h _ _, nofun⟩
      | ok form =>
          rw [andThen_ok]
          rcases put : (w.registered raw (env.hashChunk raw)).store faults.write (env.hashChunk raw) raw form with ⟨r, v⟩
          cases r with
          | error e =>
              rw [store_error whole put]
              exact ⟨[], Added.left_behind h _ _, nofun⟩
          | panics => exact absurd put store_ne_panics
          | ok left =>
              refine ⟨_, Added.fresh h fine small (formOf_good (formOf_of_failing formed)) put, ?_⟩
              rintro _ ⟨⟩
              rfl

theorem storeAll_added {raws : List Bytes} {forms : List (Option (Bytes × UInt32))} {fault : Option WriteFault}
    (h : FaultInv env w log) (fine : ∀ raw ∈ raws, ¬ Orphaned w.writer (env.hashChunk raw))
    (small : ∀ raw ∈ raws, raw.length ≤ maxChunkRaw) (good : List.Forall₂ (GoodForm env) raws forms)
    (whole : ∀ f, fault = some f → f.kept = 0) :
    ∃ more, Added env w log raws (w.storeAll env fault (raws.zip forms)).2 more ∧
      ∀ indices, (w.storeAll env fault (raws.zip forms)).1 = .ok indices → more = indices.zip raws := by
  induction good generalizing w log fault with
  | nil => exact ⟨[], Added.none h [], fun indices _ => (List.zip_nil_right ..).symm⟩
  | @cons raw form raws forms first rest ih =>
      have fine' := fun x mem => fine x (List.mem_cons_of_mem raw mem)
      have small' := fun x mem => small x (List.mem_cons_of_mem raw mem)
      rw [zip_cons_cons]
      cases found : w.writer.cas.lookup (env.hashChunk raw) with
      | some index =>
          have one := Added.known h (fine raw mem_cons_self) found
          obtain ⟨more, added, gives⟩ := ih one.inv fine' small' whole
          rw [BufferedWriter.storeAll_known found, andThen_state]
          refine ⟨(index, raw) :: more, one.cons added, fun indices taken => ?_⟩
          obtain ⟨later, stored, rfl⟩ := andThen_value taken
          rw [gives later stored, zip_cons_cons]
      | none =>
          rw [BufferedWriter.storeAll_fresh found]
          rcases put : (w.registered raw (env.hashChunk raw)).store fault (env.hashChunk raw) raw form with ⟨r, v⟩
          cases r with
          | error e =>
              rw [store_error whole put]
              exact ⟨[], Added.left_behind h _ _, nofun⟩
          | panics => exact absurd put store_ne_panics
          | ok left =>
              have one := Added.fresh h (fine raw mem_cons_self) (small raw mem_cons_self) first put
              obtain ⟨more, added, gives⟩ := ih one.inv (fun x mem => not_orphaned_store (fine' x mem) put) small'
                (store_whole whole put)
              rw [andThen_ok, andThen_state]
              refine ⟨(_, raw) :: more, one.cons added, fun indices taken => ?_⟩
              obtain ⟨later, stored, rfl⟩ := andThen_value taken
              rw [gives later stored, zip_cons_cons]

theorem checkChunkIndices_cleaned (w : ContainerWriter) (l : List UInt32) :
    (cleaned w).checkChunkIndices l = w.checkChunkIndices l := by
  induction l with
  | nil => rfl
  | cons index rest ih =>
      rw [ContainerWriter.checkChunkIndices, ContainerWriter.checkChunkIndices, ih]
      rfl

/-- Calls that only write tables. -/
def WriterCall.isTable : WriterCall → Bool
  | .addChunk _ => false
  | .addChunksParallel _ _ => false
  | _ => true

theorem step_cleaned {w v : ContainerWriter} {call : WriterCall} {first : ChunkLog} (table : call.isTable = true)
    (stepped : w.step env call = .ok (v, first)) :
    (cleaned w).step env call = .ok (cleaned v, first) ∧ first = [] ∧ v.cas = w.cas ∧ v.chunks = w.chunks ∧
      v.data = w.data ∧ v.compression = w.compression := by
  cases call with
  | addChunk raw => cases table
  | addChunksParallel data ranges => cases table
  | setZstdLevel level | setBg4 enabled | signWith secret | setMeta key value =>
      cases stepped
      exact ⟨rfl, rfl, rfl, rfl, rfl, rfl⟩
  | addTrack track =>
      obtain ⟨w₁, added, last⟩ := ok_of_bindO stepped
      cases last
      obtain ⟨u, inside, last⟩ := ok_of_bindO added
      cases last
      rw [ContainerWriter.step, ContainerWriter.addTrack, checkChunkIndices_cleaned, inside]
      exact ⟨rfl, rfl, rfl, rfl, rfl, rfl⟩
  | addSegment segment =>
      obtain ⟨w₁, added, last⟩ := ok_of_bindO stepped
      cases last
      obtain ⟨u, inside, last⟩ := ok_of_bindO added
      cases last
      rw [ContainerWriter.step, ContainerWriter.addSegment, checkChunkIndices_cleaned, inside]
      exact ⟨rfl, rfl, rfl, rfl, rfl, rfl⟩
  | pinDict index =>
      obtain ⟨w₁, added, last⟩ := ok_of_bindO stepped
      cases last
      obtain ⟨u, inside, last⟩ := ok_of_bindO added
      have inside' : (cleaned w).checkChunkIndex index = .ok u := inside
      rw [ContainerWriter.step, ContainerWriter.pinDict, inside']
      by_cases known : index ∈ w.dict
      · have known' : index ∈ (cleaned w).dict := known
        rw [if_pos known] at last
        cases last
        rw [ok_bind, if_pos known', pure_eq, ok_bind]
        exact ⟨rfl, rfl, rfl, rfl, rfl, rfl⟩
      · have known' : index ∉ (cleaned w).dict := known
        rw [if_neg known] at last
        cases last
        rw [ok_bind, if_neg known', pure_eq, ok_bind]
        exact ⟨rfl, rfl, rfl, rfl, rfl, rfl⟩

/-- A call that only writes tables keeps the writer in step. -/
theorem FaultInv.tables {call : WriterCall} {writer : ContainerWriter} {first : ChunkLog} (h : FaultInv env w log)
    (table : call.isTable = true) (stepped : w.writer.step env call = .ok (writer, first)) :
    first = [] ∧ Added env w log (payloadsOf call) { w with writer } [] := by
  obtain ⟨stepped', rfl, cas, chunks, data, compression⟩ := step_cleaned table stepped
  have inv := (step_inv h.inv stepped' nofun).1
  refine ⟨rfl, ⟨inv, ?_, ?_, ?_⟩, nofun, ?_⟩
  · rw [cas, chunks, cleaned, chunks]
    exact h.indexed
  · rw [data]
    exact h.out
  · rw [compression]
    exact h.compression
  · rw [chunks]
    exact Nat.le_add_right _ _

theorem step_table {call : WriterCall} (h : FaultInv env w log) (table : call.isTable = true) :
    ∃ more, Added env w log (payloadsOf call) (w.step env faults call).2 more ∧
      ∀ first, (w.step env faults call).1 = .ok first → first = more := by
  have shape : w.step env faults call = match w.writer.step env call with
      | .ok (writer, log) => (.ok log, { w with writer })
      | .error e => (.error e, w)
      | .panics => (.panics, w) := by
    cases call with
    | addChunk raw => cases table
    | addChunksParallel data ranges => cases table
    | _ => rfl
  rw [shape]
  cases stepped : w.writer.step env call with
  | error e => exact ⟨[], Added.none h _, nofun⟩
  | panics => exact ⟨[], Added.none h _, nofun⟩
  | ok result =>
      obtain ⟨nothing, added⟩ := h.tables table stepped
      refine ⟨[], added, ?_⟩
      rintro _ ⟨⟩
      exact nothing

/-- A sound call keeps the writer in step and logs what it returned. -/
theorem step_added {call : WriterCall} (h : FaultInv env w log) (sound : SoundCall env w call faults) :
    ∃ more, Added env w log (payloadsOf call) (w.step env faults call).2 more ∧
      ∀ first, (w.step env faults call).1 = .ok first → first = more := by
  cases call with
  | addChunk raw =>
      have mem : raw ∈ payloadsOf (.addChunk raw) := mem_singleton.mpr rfl
      obtain ⟨more, added, gives⟩ := addChunk_added h (sound.fresh raw mem) (sound.small raw mem) sound.whole
      rw [BufferedWriter.step, andThen_state]
      refine ⟨more, added, fun first taken => ?_⟩
      obtain ⟨index, stored, rfl⟩ := andThen_value taken
      exact (gives index stored).symm
  | addChunksParallel data ranges =>
      have fresh := sound.fresh
      have small := sound.small
      rw [BufferedWriter.step]
      cases sliced : ContainerWriter.slices data ranges with
      | error e => exact ⟨[], Added.none h _, nofun⟩
      | panics => exact ⟨[], Added.none h _, nofun⟩
      | ok raws =>
          have payloads : payloadsOf (.addChunksParallel data ranges) = raws := by
            rw [payloadsOf, sliced]
          rw [payloads] at fresh small ⊢
          rw [andThen_ok, andThen_state, BufferedWriter.addChunksParallel, sliced, andThen_ok]
          cases prepared : w.writer.prepareAll (env.failing faults.zstd) [] raws with
          | error e => exact ⟨[], Added.none h _, nofun⟩
          | panics => exact ⟨[], Added.none h _, nofun⟩
          | ok forms =>
              have good := prepareAll_good prepared
              obtain ⟨more, added, gives⟩ := storeAll_added h fresh small good sound.whole
              rw [andThen_ok]
              refine ⟨more, added, fun first taken => ?_⟩
              obtain ⟨indices, stored, rfl⟩ := andThen_value taken
              exact (gives indices stored).symm
  | _ => exact step_table h rfl

/-- The payloads that calls are given. -/
def passed (calls : List (WriterCall × CallFaults)) : List Bytes := calls.flatMap fun c => payloadsOf c.1

/-- Every sound run keeps the writer in step; what its calls returned is logged. -/
theorem run_added {calls : List (WriterCall × CallFaults)} (h : FaultInv env w log) (sound : SoundRun env w calls)
    (room : w.writer.chunks.length ≤ 2 ^ 32) :
    ∃ more, FaultInv env (w.run env calls).2 (log ++ more) ∧ (∀ p ∈ (w.run env calls).1, p ∈ more) ∧
      (∀ p ∈ more, p.2 ∈ passed calls) ∧ (w.run env calls).2.writer.chunks.length ≤ 2 ^ 32 := by
  induction calls generalizing w log with
  | nil =>
      refine ⟨[], ?_, nofun, nofun, room⟩
      rw [append_nil]
      exact h
  | cons entry rest ih =>
      obtain ⟨call, faults⟩ := entry
      obtain ⟨here, later⟩ := sound
      obtain ⟨more, added, gives⟩ := step_added h here
      have room' := added.room.trans here.room
      have own : ∀ p ∈ more, p.2 ∈ passed ((call, faults) :: rest) := fun p mem =>
        List.mem_flatMap.mpr ⟨_, mem_cons_self, added.passed p mem⟩
      obtain ⟨more', inv, logged, given, room''⟩ := ih added.inv later room'
      have given' : ∀ p ∈ more ++ more', p.2 ∈ passed ((call, faults) :: rest) := fun p mem =>
        (mem_append.mp mem).elim (own p) fun mem => mem_append_right (payloadsOf call) (given p mem)
      rw [append_assoc] at inv
      rcases stepped : w.step env faults call with ⟨r, v⟩
      rw [stepped] at added gives inv logged room'' room'
      rw [BufferedWriter.run, stepped]
      cases r with
      | ok first =>
          refine ⟨more ++ more', inv, fun p mem => ?_, given', room''⟩
          rw [← gives first rfl]
          exact (mem_append.mp mem).elim (List.mem_append_left _) fun mem => mem_append_right _ (logged p mem)
      | error e => exact ⟨more ++ more', inv, fun p mem => mem_append_right _ (logged p mem), given', room''⟩
      | panics => exact ⟨more, added.inv, nofun, own, room'⟩

theorem finish_whole {file : Bytes} {stats : PackStats} (out : w.out = w.writer.data)
    (h : w.finish env = .ok (file, stats)) : w.writer.finish env = .ok (file, stats) := by
  obtain ⟨⟨file', stats'⟩, finished, h₁⟩ := ok_of_bindO h
  dsimp only at h₁
  split at h₁
  · cases h₁
  · cases h₁
    obtain ⟨rfl, -, -⟩ := finish_ok finished
    rw [finished, out, containerBytes_eq, List.flatMap_cons, append_assoc]

/-- In a run whose calls are all sound, whichever of them fail, every index leads to a
record of the payload it was returned for, and a file that is finished passes its checks and
gives back every segment. -/
theorem failed_adds_sound (env : ContainerEnv) (uuid : Uuid) (timescale : UInt32) (compress : Bool)
    (calls : List (WriterCall × CallFaults)) (log : ChunkLog) (w : BufferedWriter)
    (ran : (BufferedWriter.create uuid timescale compress).run env calls = (log, w))
    (sound : SoundRun env (BufferedWriter.create uuid timescale compress) calls) :
    (∀ index raw, (index, raw) ∈ log → ∃ c, w.writer.chunks[index.toNat]? = some c ∧ c.hash = env.hashChunk raw) ∧
    ∀ file stats, w.finish env = .ok (file, stats) → w.writer.CountsFit env →
      (∀ m ∈ w.writer.metaPairs, (strBytes m.2).length < 2 ^ 32) →
      (∀ p ∈ passed calls, ∀ q ∈ passed calls, env.hashChunk p = env.hashChunk q → p = q) →
      ∃ r, Reader.openFile env file = .ok r ∧ (∃ report, r.verify env = .ok report) ∧
        r.segments = w.writer.segments ∧
        ∀ s ∈ r.segments, ∀ payloads, Payloads log s.chunks payloads → r.segmentBytes env s = .ok payloads.flatten := by
  obtain ⟨all, inv, logged, given, room⟩ := run_added (create_faultInv uuid timescale compress) sound (Nat.zero_le _)
  rw [ran] at inv logged room
  rw [List.nil_append] at inv
  constructor
  · intro index raw mem
    obtain ⟨k, c, there, rfl, hash⟩ := inv.inv.logged index raw (logged _ mem)
    have within := (List.getElem?_eq_some_iff.mp there).1
    have below : k < 2 ^ 32 := within.trans_le room
    rw [ofNat_toNat below]
    exact ⟨c, there, hash⟩
  · intro file stats finished counts values clear
    have finished' : (cleaned w.writer).finish env = .ok (file, stats) := finish_whole inv.out finished
    have counts' : (cleaned w.writer).CountsFit env := ⟨counts.tracks, counts.segments, counts.chunks, counts.metaPairs⟩
    have opened := openFile_finished inv.inv finished' inv.compression values counts'
    have opens := reopens_finished finished' counts'
    set r := openedFrom env (superblockOf env (cleaned w.writer).compression (cleaned w.writer).timescale
      (cleaned w.writer).assetUuid (cleaned w.writer).data ((cleaned w.writer).tables env)) (cleaned w.writer).data
      ((cleaned w.writer).tables env) with hr
    have segments : r.segments = w.writer.segments := rfl
    refine ⟨r, opened, ?_, segments, fun s mem payloads returned => ?_⟩
    · have data : findSection r.sections .data =
          .ok ⟨.data, superblockLen, w.writer.data.length, env.hashChunk w.writer.data⟩ := rfl
      exact opens.verify inv.inv rfl data rfl
    · rw [segments] at mem
      obtain ⟨payloads', stored, read⟩ := opens.payloads inv.inv (inv.inv.segments s mem)
      have unique : Relator.RightUnique fun (i : UInt32) (p : Bytes) => (i, p) ∈ all := fun i p q mem mem' =>
        opens.exact inv.inv (fun p mem q mem' => clear _ (given p mem) _ (given q mem')) mem mem'
      have returned' : Payloads all s.chunks payloads := returned.imp fun i p mem => logged (i, p) mem
      rw [List.right_unique_forall₂' unique returned' stored]
      exact read

end Run

section Sample

/-- A chunk that is not written, one that is, and a segment with it. -/
def failedCalls : List (WriterCall × CallFaults) :=
  [(.addChunk [7], ⟨fun _ => none, some ⟨0, .other, 0⟩⟩), (.addChunk [8], noFaults),
    (.addSegment ⟨0, 0, 0, 0, 0, [0]⟩, noFaults)]

def failedWriter : BufferedWriter := ((BufferedWriter.create zeroUuid 0 true).run plainEnv failedCalls).2

theorem failedWriter_finish : ∃ file stats, failedWriter.finish plainEnv = .ok (file, stats) := by
  have ok : (failedWriter.finish plainEnv >>= fun _ => .ok ()) = (.ok () : FormatResult Unit) := by decide +kernel
  obtain ⟨⟨file, stats⟩, finished, -⟩ := ok_of_bindO ok
  exact ⟨file, stats, finished⟩

theorem failed_adds_sound_second : ∃ file stats r, failedWriter.finish plainEnv = .ok (file, stats) ∧
    Reader.openFile plainEnv file = .ok r ∧ r.segmentBytes plainEnv ⟨0, 0, 0, 0, 0, [0]⟩ = .ok [8] := by
  obtain ⟨file, stats, finished⟩ := failedWriter_finish
  have sound : SoundRun plainEnv (BufferedWriter.create zeroUuid 0 true) failedCalls := by
    refine ⟨?_, ?_, ?_, trivial⟩
    · refine ⟨?_, by decide, by decide, by rintro f ⟨⟩; rfl⟩
      rintro raw - ⟨known, -⟩
      cases known
    · refine ⟨fun raw mem => ?_, by decide, by decide, nofun⟩
      rw [mem_singleton.mp mem]
      rintro ⟨known, -⟩
      exact absurd known (by decide +kernel)
    · exact ⟨nofun, nofun, by decide, nofun⟩
  have counts : failedWriter.writer.CountsFit plainEnv :=
    ⟨⟨by decide, nofun⟩, ⟨by decide, by decide⟩, by decide, by decide⟩
  obtain ⟨-, reads⟩ := failed_adds_sound plainEnv zeroUuid 0 true failedCalls [(0, [8])] failedWriter rfl sound
  obtain ⟨r, opened, -, segments, read⟩ := reads file stats finished counts nofun (by decide)
  have mem : (⟨0, 0, 0, 0, 0, [0]⟩ : SegmentRecord) ∈ r.segments := by
    rw [segments]
    exact mem_singleton.mpr rfl
  exact ⟨file, stats, r, finished, opened, read _ mem [[8]] (.cons (mem_singleton.mpr rfl) .nil)⟩

/-- A chunk whose write failed is given an index when it is added again, and no record. -/
theorem not_failed_adds : ¬ ∀ (env : ContainerEnv) (uuid : Uuid) (timescale : UInt32) (compress : Bool)
    (calls : List (WriterCall × CallFaults)) (log : ChunkLog) (w : BufferedWriter),
    (BufferedWriter.create uuid timescale compress).run env calls = (log, w) →
    (∀ raw ∈ passed calls, raw.length ≤ maxChunkRaw) →
    (∀ p ∈ passed calls, ∀ q ∈ passed calls, env.hashChunk p = env.hashChunk q → p = q) →
    (∀ c ∈ calls, ∀ fault, c.2.write = some fault → fault.kept = 0) →
    ∀ index raw, (index, raw) ∈ log → ∃ c, w.writer.chunks[index.toNat]? = some c ∧ c.hash = env.hashChunk raw := by
  intro labels
  set big : Bytes := List.replicate 8192 0 with hbig
  have long : big.length = 8192 := List.length_replicate
  set calls : List (WriterCall × CallFaults) := [(.addChunk big, ⟨fun _ => none, some ⟨0, .other, 0⟩⟩), (.addChunk big, noFaults)]
    with hcalls
  set left := (BufferedWriter.create zeroUuid 0 false).registered big (plainEnv.hashChunk big) with hleft
  have fails : (BufferedWriter.create zeroUuid 0 false).step plainEnv ⟨fun _ => none, some ⟨0, .other, 0⟩⟩ (.addChunk big) =
      (.error (.io .other), left) := by
    rw [BufferedWriter.step, BufferedWriter.addChunk_fresh rfl]
    rfl
  have again : left.step plainEnv noFaults (.addChunk big) =
      (.ok [(0, big)], left.referenced big (plainEnv.hashChunk big)) := by
    have known : left.writer.cas.lookup (plainEnv.hashChunk big) = some 0 := KeyedList.lookup_cons_self
    rw [BufferedWriter.step, BufferedWriter.addChunk_known known]
    rfl
  have ran : (BufferedWriter.create zeroUuid 0 false).run plainEnv calls =
      ([(0, big)], left.referenced big (plainEnv.hashChunk big)) := by
    rw [hcalls, BufferedWriter.run, fails]
    dsimp only
    rw [BufferedWriter.run, again]
    rfl
  have all : ∀ raw ∈ passed calls, raw = big := by
    intro raw mem
    change raw ∈ [big, big] at mem
    simpa using mem
  obtain ⟨c, there, -⟩ := labels plainEnv zeroUuid 0 false calls _ _ ran
    (fun raw mem => by rw [all raw mem, long]; decide)
    (fun p mem q mem' _ => (all p mem).trans (all q mem').symm)
    (by
      intro c mem fault found
      rcases mem_cons.mp mem with rfl | mem
      · cases found
        rfl
      · rw [mem_singleton.mp mem] at found
        cases found)
    0 big (mem_singleton.mpr rfl)
  cases there

end Sample
end Cavs
