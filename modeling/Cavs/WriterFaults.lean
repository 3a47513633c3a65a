import Cavs.ContainerRun

/-!
# A writer whose calls fail

Compression and the file behind the buffer may report an error in the middle of a call. The
writer is left as the call left it, and the caller may go on with it.
-/
namespace Cavs
open FileProg (Bytes IoError)

/-- A write that goes wrong when `after` others of the call went well; the file has the
first `kept` of its bytes all the same. -/
structure WriteFault where
  after : Nat
  error : IoError
  kept : Nat

/-- What goes wrong in a call: the payloads that are not compressed, and a write. -/
structure CallFaults where
  zstd : Bytes → Option String
  write : Option WriteFault

def noFaults : CallFaults := ⟨fun _ => none, none⟩

/-- Compression fails on some payloads. -/
def ContainerEnv.failing (env : ContainerEnv) (zstd : Bytes → Option String) : ContainerEnv :=
  { env with
    compress := fun level b => match zstd b with
      | some e => .error e
      | none => env.compress level b
    decompress_compress := by
      intro level b z n packed
      cases fault : zstd b with
      | some e =>
          rw [fault] at packed
          cases packed
      | none =>
          rw [fault] at packed
          exact env.decompress_compress level b z n packed }

/-- A writer with the references its index counts, and what the file got behind the
superblock. -/
structure BufferedWriter where
  writer : ContainerWriter
  refcount : ChunkHash → Nat
  out : Bytes

section Calls
variable {α β : Type} {r : FormatResult α × BufferedWriter}

/-- Go on with a value, in the state it was left with. -/
def andThen (r : FormatResult α × BufferedWriter) (f : α → BufferedWriter → FormatResult β × BufferedWriter) :
    FormatResult β × BufferedWriter :=
  match r with
  | (.ok a, w) => f a w
  | (.error e, w) => (.error e, w)
  | (.panics, w) => (.panics, w)

@[simp] theorem andThen_ok (a : α) (w : BufferedWriter) (f : α → BufferedWriter → FormatResult β × BufferedWriter) :
    andThen (.ok a, w) f = f a w := rfl

theorem ok_of_andThen {f : α → BufferedWriter → FormatResult β × BufferedWriter} {b : β} {w : BufferedWriter}
    (h : andThen r f = (.ok b, w)) : ∃ a v, r = (.ok a, v) ∧ f a v = (.ok b, w) := by
  obtain ⟨r, v⟩ := r
  cases r with
  | ok a => exact ⟨a, v, rfl, h⟩
  | error e => cases h
  | panics => cases h

/-- What is made of the value leaves the state alone. -/
theorem andThen_state (r : FormatResult α × BufferedWriter) (f : α → β) :
    (andThen r fun a w => (.ok (f a), w)).2 = r.2 := by
  obtain ⟨r, w⟩ := r
  cases r <;> rfl

theorem andThen_value {f : α → β} {b : β} (h : (andThen r fun a w => (.ok (f a), w)).1 = .ok b) :
    ∃ a, r.1 = .ok a ∧ f a = b := by
  obtain ⟨r, w⟩ := r
  cases r with
  | ok a =>
      cases h
      exact ⟨a, rfl, rfl⟩
  | error e => cases h
  | panics => cases h

variable (env : ContainerEnv)

namespace BufferedWriter
variable (w : BufferedWriter)

def create (assetUuid : Uuid) (timescale : UInt32) (compress : Bool) : BufferedWriter where
  writer := .create assetUuid timescale compress
  refcount _ := 0
  out := []

def count (raw : Bytes) : BufferedWriter := { w with writer := w.writer.count raw }

def intern (hash : ChunkHash) : UInt32 × Bool × BufferedWriter :=
  let (index, isNew, writer) := w.writer.intern hash
  (index, isNew, { w with
    writer
    refcount := fun h => if h = hash then w.refcount h + 1 else w.refcount h })

/-- Write a stored form, and take it into the table after that; gives the fault that is
still ahead. -/
def store (fault : Option WriteFault) (hash : ChunkHash) (raw : Bytes) (form : Option (Bytes × UInt32)) :
    FormatResult (Option WriteFault) × BufferedWriter :=
  let stored := (form.getD (raw, 0)).1
  let written := { w with writer := w.writer.store hash raw form, out := w.out ++ stored }
  match fault with
  | none => (.ok none, written)
  | some ⟨0, error, kept⟩ => (.error (.io error), { w with out := w.out ++ stored.take kept })
  | some ⟨after + 1, error, kept⟩ => (.ok (some ⟨after, error, kept⟩), written)

def addChunk (faults : CallFaults) (raw : Bytes) : FormatResult UInt32 × BufferedWriter :=
  let hash := env.hashChunk raw
  let (index, isNew, w) := (w.count raw).intern hash
  if isNew then
    andThen (w.writer.formOf (env.failing faults.zstd) raw, w) fun form w =>
      andThen (w.store faults.write hash raw form) fun _ w => (.ok index, w)
  else (.ok index, w)

/-- Store prepared payloads one after another. -/
def storeAll (w : BufferedWriter) (fault : Option WriteFault) :
    List (Bytes × Option (Bytes × UInt32)) → FormatResult (List UInt32) × BufferedWriter
  | [] => (.ok [], w)
  | (raw, form) :: rest =>
      let hash := env.hashChunk raw
      let (index, isNew, w) := (w.count raw).intern hash
      andThen (if isNew then w.store fault hash raw form else (.ok fault, w)) fun fault w =>
        andThen (storeAll w fault rest) fun indices w => (.ok (index :: indices), w)

def addChunksParallel (faults : CallFaults) (data : Bytes) (ranges : List (Nat × Nat)) :
    FormatResult (List UInt32) × BufferedWriter :=
  andThen (ContainerWriter.slices data ranges, w) fun raws w =>
    andThen (w.writer.prepareAll (env.failing faults.zstd) [] raws, w) fun forms w =>
      w.storeAll env faults.write (raws.zip forms)

/-- One payload after another, and nothing goes wrong. -/
def addRanges (w : BufferedWriter) (data : Bytes) : List (Nat × Nat) → FormatResult (List UInt32) × BufferedWriter
  | [] => (.ok [], w)
  | range :: rest =>
      andThen (ContainerWriter.slice data range, w) fun raw w =>
        andThen (w.addChunk env noFaults raw) fun index w =>
          andThen (addRanges w data rest) fun indices w => (.ok (index :: indices), w)

end BufferedWriter
end Calls

section Serial
variable {env : ContainerEnv} {raw : Bytes} {form : Option (Bytes × UInt32)} {zstd : Bytes → Option String}
  {level : Int} {hash : ChunkHash}

theorem failing_noFaults (env : ContainerEnv) : env.failing noFaults.zstd = env := rfl

/-- What was compressed in spite of the faults is compressed the same without them. -/
theorem compress_of_failing {b z : Bytes} (h : zstdCompress (env.failing zstd) level b = .ok z) :
    zstdCompress env level b = .ok z := by
  rw [zstdCompress, ContainerEnv.failing] at h
  dsimp only at h
  cases fault : zstd b with
  | some e =>
      rw [fault] at h
      cases h
  | none =>
      rw [fault] at h
      exact h

theorem prepareStored_of_failing {tryBg4 : Bool}
    (h : prepareStored (env.failing zstd) raw level tryBg4 = .ok form) :
    prepareStored env raw level tryBg4 = .ok form := by
  rw [prepareStored] at h ⊢
  obtain ⟨plain, packed, h⟩ := Outcome.ok_of_bindO h
  rw [compress_of_failing packed, Outcome.ok_bind]
  dsimp only at h ⊢
  split at h
  · rename_i enough
    rw [if_pos enough]
    exact h
  · rename_i enough
    rw [if_neg enough]
    obtain ⟨bg, packed', h⟩ := Outcome.ok_of_bindO h
    rw [compress_of_failing packed', Outcome.ok_bind]
    exact h

theorem formOf_of_failing {w : ContainerWriter} (h : w.formOf (env.failing zstd) raw = .ok form) :
    w.formOf env raw = .ok form := by
  rw [ContainerWriter.formOf] at h ⊢
  split at h
  · rename_i pays
    rw [if_pos pays]
    exact prepareStored_of_failing h
  · rename_i pays
    rw [if_neg pays]
    exact h

/-- A writer in the middle of a batch: it knows what it knew before the batch and what was
seen in it, and compresses the same way. -/
structure Follows (w : ContainerWriter) (seen : List ChunkHash) (now : ContainerWriter) : Prop where
  known : ∀ hash, (now.cas.lookup hash).isNone = ((w.cas.lookup hash).isNone && !seen.contains hash)
  compression : now.compression = w.compression
  zstdLevel : now.zstdLevel = w.zstdLevel
  bg4 : now.bg4 = w.bg4

variable {w : ContainerWriter} {seen : List ChunkHash} {now : ContainerWriter}

theorem Follows.refl (w : ContainerWriter) : Follows w [] w := by
  constructor
  · intro hash
    rw [List.contains_nil, Bool.not_false, Bool.and_true]
  all_goals rfl

theorem Follows.formOf (h : Follows w seen now) : w.formOf env raw = now.formOf env raw := by
  rw [ContainerWriter.formOf, ContainerWriter.formOf, h.compression, h.zstdLevel, h.bg4]

variable {cur cur' : BufferedWriter} {fault left : Option WriteFault} {index : UInt32}

/-- A write that went well is the write without a fault. -/
theorem store_ok (h : cur.store fault hash raw form = (.ok left, cur')) :
    cur.store none hash raw form = (.ok none, cur') := by
  rcases fault with _ | ⟨_ | after, error, kept⟩
  · cases h
    rfl
  · cases h
  · cases h
    rfl

namespace BufferedWriter
variable {hash : ChunkHash} {faults : CallFaults}

/-- A payload was counted and its hash was looked up. -/
def referenced (cur : BufferedWriter) (raw : Bytes) (hash : ChunkHash) : BufferedWriter :=
  { cur with
    writer := cur.writer.count raw
    refcount := fun h => if h = hash then cur.refcount h + 1 else cur.refcount h }

/-- And the index has it under the next number. -/
def registered (cur : BufferedWriter) (raw : Bytes) (hash : ChunkHash) : BufferedWriter :=
  { cur.referenced raw hash with
    writer := { cur.writer.count raw with cas := cur.writer.cas ++ [(hash, UInt32.ofNat cur.writer.chunks.length)] } }

theorem intern_known (found : cur.writer.cas.lookup hash = some index) :
    (cur.count raw).intern hash = (index, false, cur.referenced raw hash) := by
  have known : (cur.writer.count raw).intern hash = (index, false, cur.writer.count raw) := by
    rw [ContainerWriter.intern, ContainerWriter.count]
    dsimp only
    rw [found]
  rw [intern, count]
  dsimp only
  rw [known]
  rfl

theorem intern_fresh (absent : cur.writer.cas.lookup hash = none) :
    (cur.count raw).intern hash = (UInt32.ofNat cur.writer.chunks.length, true, cur.registered raw hash) := by
  have fresh : (cur.writer.count raw).intern hash = (UInt32.ofNat cur.writer.chunks.length, true,
      (cur.registered raw hash).writer) := by
    rw [ContainerWriter.intern, ContainerWriter.count]
    dsimp only
    rw [absent]
    rfl
  rw [intern, count]
  dsimp only
  rw [fresh]
  rfl

theorem addChunk_known (found : cur.writer.cas.lookup (env.hashChunk raw) = some index) :
    cur.addChunk env faults raw = (.ok index, cur.referenced raw (env.hashChunk raw)) := by
  rw [addChunk, intern_known found]
  rfl

theorem addChunk_fresh (absent : cur.writer.cas.lookup (env.hashChunk raw) = none) :
    cur.addChunk env faults raw =
      andThen (cur.writer.formOf (env.failing faults.zstd) raw, cur.registered raw (env.hashChunk raw)) fun form w =>
        andThen (w.store faults.write (env.hashChunk raw) raw form) fun _ w =>
          (.ok (UInt32.ofNat cur.writer.chunks.length), w) := by
  rw [addChunk, intern_fresh absent]
  rfl

variable {rest : List (Bytes × Option (Bytes × UInt32))}

theorem storeAll_known (found : cur.writer.cas.lookup (env.hashChunk raw) = some index) :
    cur.storeAll env fault ((raw, form) :: rest) =
      andThen ((cur.referenced raw (env.hashChunk raw)).storeAll env fault rest) fun indices w =>
        (.ok (index :: indices), w) := by
  rw [storeAll, intern_known found]
  rfl

theorem storeAll_fresh (absent : cur.writer.cas.lookup (env.hashChunk raw) = none) :
    cur.storeAll env fault ((raw, form) :: rest) =
      andThen ((cur.registered raw (env.hashChunk raw)).store fault (env.hashChunk raw) raw form) fun fault w =>
        andThen (w.storeAll env fault rest) fun indices w =>
          (.ok (UInt32.ofNat cur.writer.chunks.length :: indices), w) := by
  rw [storeAll, intern_fresh absent]
  rfl

end BufferedWriter

/-- A payload that was new is seen. -/
theorem Follows.store (h : Follows w seen cur.writer)
    (put : (cur.registered raw hash).store none hash raw form = (.ok none, cur')) :
    Follows w (hash :: seen) cur'.writer := by
  cases put
  constructor
  · intro other
    change ((cur.writer.cas ++ [(hash, UInt32.ofNat cur.writer.chunks.length)]).lookup other).isNone = _
    rw [List.contains_cons, Bool.not_or, Bool.and_left_comm, ← h.known other, List.lookup_append, Option.isNone_or,
      Bool.and_comm]
    congr 1
    by_cases same : other = hash
    · rw [same, KeyedList.lookup_cons_self, beq_self_eq_true]
      rfl
    · rw [KeyedList.lookup_cons_ne same, beq_false_of_ne same]
      rfl
  · exact h.compression
  · exact h.zstdLevel
  · exact h.bg4

/-- What a batch stores is what its payloads store one after another. -/
theorem storeAll_serial {data : Bytes} {ranges : List (Nat × Nat)} {raws : List Bytes}
    {forms : List (Option (Bytes × UInt32))} {indices : List UInt32} (follows : Follows w seen cur.writer)
    (sliced : ContainerWriter.slices data ranges = .ok raws)
    (prepared : w.prepareAll (env.failing zstd) seen raws = .ok forms)
    (stored : cur.storeAll env fault (raws.zip forms) = (.ok indices, cur')) :
    cur.addRanges env data ranges = (.ok indices, cur') := by
  induction ranges generalizing raws forms seen cur fault indices with
  | nil =>
      cases sliced
      cases prepared
      exact stored
  | cons range rest ih =>
      rw [ContainerWriter.slices] at sliced
      obtain ⟨raw, slice, sliced₁⟩ := Outcome.ok_of_bindO sliced
      obtain ⟨raws', sliced', sliced₂⟩ := Outcome.ok_of_bindO sliced₁
      cases sliced₂
      rw [ContainerWriter.prepareAll] at prepared
      obtain ⟨form, formed, prepared₁⟩ := Outcome.ok_of_bindO prepared
      obtain ⟨forms', prepared', prepared₂⟩ := Outcome.ok_of_bindO prepared₁
      cases prepared₂
      rw [List.zip_cons_cons] at stored
      rw [BufferedWriter.addRanges, slice]
      have first := follows.known (env.hashChunk raw)
      change (if (w.cas.lookup (env.hashChunk raw)).isNone && !seen.contains (env.hashChunk raw) then _ else _) = _
        at formed
      change w.prepareAll _ (if (w.cas.lookup (env.hashChunk raw)).isNone && !seen.contains (env.hashChunk raw)
        then _ else _) _ = _ at prepared'
      rw [← first] at formed prepared'
      cases found : cur.writer.cas.lookup (env.hashChunk raw) with
      | some index =>
          -- The payload is known before the batch, or from an earlier place in it.
          rw [found] at formed prepared'
          rw [BufferedWriter.storeAll_known found] at stored
          obtain ⟨indices', last, stored', stored₁⟩ := ok_of_andThen stored
          cases stored₁
          have next : Follows w seen (cur.referenced raw (env.hashChunk raw)).writer :=
            ⟨follows.known, follows.compression, follows.zstdLevel, follows.bg4⟩
          rw [andThen_ok, BufferedWriter.addChunk_known found, andThen_ok, ih next sliced' prepared' stored', andThen_ok]
      | none =>
          rw [found] at formed prepared'
          rw [BufferedWriter.storeAll_fresh found] at stored
          obtain ⟨left, now, went, stored₁⟩ := ok_of_andThen stored
          obtain ⟨indices', last, stored', stored₂⟩ := ok_of_andThen stored₁
          cases stored₂
          have formed' : cur.writer.formOf (env.failing noFaults.zstd) raw = .ok form := by
            rw [failing_noFaults, ← follows.formOf]
            exact formOf_of_failing formed
          have put := store_ok went
          have next : Follows w (env.hashChunk raw :: seen) now.writer := follows.store put
          rw [andThen_ok, BufferedWriter.addChunk_fresh found, formed', andThen_ok, noFaults, put, andThen_ok,
            andThen_ok, ih next sliced' prepared' stored', andThen_ok]

/-- A batch that is taken leaves the writer, and returns, what its payloads do one after
another, whatever the writer went through before. -/
theorem addChunksParallel_serial (env : ContainerEnv) (w w' : BufferedWriter) (faults : CallFaults) (data : Bytes)
    (ranges : List (Nat × Nat)) (indices : List UInt32)
    (h : w.addChunksParallel env faults data ranges = (.ok indices, w')) :
    w.addRanges env data ranges = (.ok indices, w') := by
  obtain ⟨raws, now, first, h₁⟩ := ok_of_andThen h
  obtain ⟨sliced, rfl⟩ := Prod.mk.inj first
  obtain ⟨forms, now', second, stored⟩ := ok_of_andThen h₁
  obtain ⟨prepared, rfl⟩ := Prod.mk.inj second
  exact storeAll_serial (.refl w.writer) sliced prepared stored

/-- A run that pays to compress, and one byte more. -/
def runBytes : Bytes := List.replicate 512 0 ++ [9]

theorem addChunksParallel_serial_repeats : ∃ w',
    (BufferedWriter.create zeroUuid 0 true).addChunksParallel zeroTailEnv noFaults runBytes [(0, 512), (0, 512), (512, 513)] =
      (.ok [0, 0, 1], w') ∧
    (BufferedWriter.create zeroUuid 0 true).addRanges zeroTailEnv runBytes [(0, 512), (0, 512), (512, 513)] =
      (.ok [0, 0, 1], w') ∧ w'.out = ByteScan.le 8 512 ++ [9] := by
  rcases call : (BufferedWriter.create zeroUuid 0 true).addChunksParallel zeroTailEnv noFaults runBytes
    [(0, 512), (0, 512), (512, 513)] with ⟨answer, w'⟩
  have known : answer = .ok [0, 0, 1] ∧ w'.out = ByteScan.le 8 512 ++ [9] := by
    rw [show answer = _ from (congrArg Prod.fst call).symm, show w' = _ from (congrArg Prod.snd call).symm]
    decide +kernel
  obtain ⟨rfl, out⟩ := known
  exact ⟨w', rfl, addChunksParallel_serial zeroTailEnv _ _ noFaults runBytes _ _ call, out⟩

end Serial
end Cavs
