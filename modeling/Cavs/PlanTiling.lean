import Cavs.Codecs
import Cavs.Plan
import Cavs.ScanPrefix
import Mathlib.Algebra.BigOperators.Group.List.Basic

/-!
# What a decoded plan delivers

Validation adds the lengths of an entry's operations without a check, so what it knows of
an entry holds up to multiples of 2^64. Where the lengths do not reach that far, the
operations tile the entry and writing it gives the declared size.
-/
namespace Cavs
open FileProg (Bytes)
open ByteScan
open OfflinePlan (decode)

section Tiles

variable {ops : List PlanOp}

def totalLen (ops : List PlanOp) : Nat := (ops.map fun op => op.len.toNat).sum

/-- The operations start one after another from `pos` on and end at `stop`. -/
def Tiles : (pos : Nat) → List PlanOp → (stop : Nat) → Prop
  | pos, [], stop => pos = stop
  | pos, op :: rest, stop => op.newOffset.toNat = pos ∧ Tiles (pos + op.len.toNat) rest stop

/-- The same with sums that wrap. -/
def WrapTiles : (pos : UInt64) → List PlanOp → (stop : UInt64) → Prop
  | pos, [], stop => pos = stop
  | pos, op :: rest, stop => op.newOffset = pos ∧ WrapTiles (pos + op.len) rest stop

theorem Tiles.total {pos stop : Nat} (h : Tiles pos ops stop) :
    stop = pos + totalLen ops := by
  induction ops generalizing pos with
  | nil => exact h.symm
  | cons op rest ih =>
      have tail := ih h.2
      rw [totalLen, List.map_cons, List.sum_cons, ← totalLen]
      omega

theorem WrapTiles.tiles {pos stop : UInt64} (h : WrapTiles pos ops stop)
    (fits : pos.toNat + totalLen ops < 2 ^ 64) : Tiles pos.toNat ops stop.toNat := by
  induction ops generalizing pos with
  | nil => exact congrArg UInt64.toNat h
  | cons op rest ih =>
      obtain ⟨here, later⟩ := h
      rw [totalLen, List.map_cons, List.sum_cons, ← totalLen] at fits
      have sum : (pos + op.len).toNat = pos.toNat + op.len.toNat := by
        rw [UInt64.toNat_add, Nat.mod_eq_of_lt (by omega)]
      refine ⟨congrArg UInt64.toNat here, ?_⟩
      rw [← sum]
      exact ih later (by omega)

end Tiles

section Validated
variable {plan : OfflinePlan} {cursor cursor' : OpCursor} {ops : List PlanOp} {env : Env} {bytes : Bytes}

def OfflinePlan.opsOf (plan : OfflinePlan) (entry : PlanEntry) : List PlanOp :=
  plan.ops.filter fun op => op.newEntryId = entry.entryId

theorem checkOp_ok {op : PlanOp} (h : plan.checkOp cursor op = .ok cursor') :
    plan.checkSource op = .ok () ∧ op.newOffset = cursor op.newEntryId ∧
      cursor' = fun id => if id = op.newEntryId then cursor op.newEntryId + op.len else cursor id := by
  obtain ⟨⟨⟩, source, h⟩ := ok_of_bindE h
  refine ⟨source, ?_⟩
  split at h
  · cases h
  · dsimp only at h
    split at h
    · cases h
    · rename_i start
      split at h
      · cases h
      · cases h
        exact ⟨not_not.mp start, rfl⟩

theorem checkOps_tiles (h : plan.checkOps cursor ops = .ok cursor') (id : UInt32) :
    WrapTiles (cursor id) (ops.filter fun op => op.newEntryId = id) (cursor' id) := by
  induction ops generalizing cursor with
  | nil =>
      cases h
      rfl
  | cons op rest ih =>
      obtain ⟨next, first, later⟩ := ok_of_bindE h
      obtain ⟨-, start, rfl⟩ := checkOp_ok first
      have tail := ih later
      by_cases mine : op.newEntryId = id
      · subst mine
        rw [if_pos rfl] at tail
        rw [List.filter_cons_of_pos (by simp)]
        exact ⟨start, tail⟩
      · rw [if_neg (Ne.symm mine)] at tail
        rw [List.filter_cons_of_neg (by simpa using mine)]
        exact tail

theorem checkOps_sources (h : plan.checkOps cursor ops = .ok cursor') :
    ∀ op ∈ ops, plan.checkSource op = .ok () := by
  induction ops generalizing cursor with
  | nil => exact fun op mem => (List.not_mem_nil mem).elim
  | cons op rest ih =>
      obtain ⟨next, first, later⟩ := ok_of_bindE h
      intro op' mem
      rcases List.mem_cons.mp mem with rfl | mem
      · exact (checkOp_ok first).1
      · exact ih later op' mem

/-- What validation knows of a plan. -/
structure OfflinePlan.Valid (plan : OfflinePlan) : Prop where
  wraps : ∀ e ∈ plan.newEntries, e.kind = .file → WrapTiles 0 (plan.opsOf e) e.size
  inlines : plan.kind = .portable → ∀ op ∈ plan.ops, op.inBlob plan.blob

theorem validate_ok (h : plan.validate = .ok ()) : plan.Valid := by
  obtain ⟨⟨⟩, -, h⟩ := ok_of_bindE h
  obtain ⟨⟨⟩, -, h⟩ := ok_of_bindE h
  obtain ⟨⟨⟩, -, h⟩ := ok_of_bindE h
  obtain ⟨cursor, ops, covered⟩ := ok_of_bindE h
  constructor
  · intro e mem file
    rw [OfflinePlan.checkCovered] at covered
    split at covered
    · cases covered
    · rename_i none_
      have size := List.find?_eq_none.mp none_ e mem
      have whole : cursor e.entryId = e.size := by simpa [file] using size
      exact whole ▸ checkOps_tiles ops e.entryId
  · intro portable op mem
    have source := checkOps_sources ops op mem
    cases op with
    | copyOld => trivial
    | inlined =>
        rw [OfflinePlan.checkSource] at source
        split at source
        · cases source
        · rename_i bound
          by_contra outside
          exact bound ⟨portable, outside⟩

theorem yields_readPlan (env : Env) : Yields (readPlan env) fun p => p.blob.length ≤ maxBlobRaw := by
  have count : ∀ max what, Yields (readCount max what) fun n => n ≤ max := by
    intro max what
    refine .skip fun n => ?_
    split
    · exact .throw
    · rename_i small
      exact .pure (Nat.le_of_not_lt small)
  have blob : ∀ (n : Nat) (comp : Bytes), Yields (throwExcept (decodeBlob env n comp)) fun b => b.length = n := by
    intro n comp
    cases read : decodeBlob env n comp with
    | error e => exact .throw
    | ok b =>
        refine .pure ?_
        rw [decodeBlob] at read
        split at read
        · rename_i zero
          cases read
          exact zero.symm
        · split at read
          · cases read
          · rename_i raw _
            split at read
            · cases read
            · rename_i whole
              cases read
              exact not_not.mp whole
  refine .skip fun _ => .skip fun _ => .skip fun _ => .skip fun _ => .skip fun _ => .skip fun _ => .skip fun _ =>
    .skip fun _ => .skip fun _ => .skip fun _ => .skip fun _ => .skip fun _ => .skip fun _ => .skip fun _ =>
    .skip fun _ => .skip fun _ => .skip fun _ => .skip fun _ => .skip fun _ => .skip fun _ =>
    .bind (count _ _) fun n small => .skip fun _ => .skip fun _ => .skip fun _ => .skip fun _ =>
    .bind (blob n _) fun b length => .pure ?_
  exact length.trans_le small

/-- What decodes was read as a whole and passed its validation. -/
theorem decode_read (h : decode env bytes = .ok plan) :
    plan.validate = .ok () ∧ plan.blob.length ≤ maxBlobRaw := by
  rw [decode] at h
  split at h
  · cases h
  · split at h
    · cases h
    · dsimp only at h
      split at h
      · cases h
      · split at h
        · cases h
        · rename_i read cursor found
          obtain ⟨⟨⟩, valid, same⟩ := ok_of_bindE h
          cases same
          exact ⟨valid, yields_readPlan env () _ _ _ _ (Prod.ext found rfl)⟩

theorem decode_ok (h : decode env bytes = .ok plan) :
    plan.Valid ∧ plan.blob.length ≤ maxBlobRaw := ⟨validate_ok (decode_read h).1, (decode_read h).2⟩

end Validated

section Writing
variable {plan : OfflinePlan} {old : OldSource} {blob : Bytes} {id : UInt32}

theorem copyRange_length {offset : UInt64} {len done : Nat} :
    (copyRange old id offset len done).Returns fun b => b.length = len - done := by
  induction hn : len - done using Nat.strongRecOn generalizing done with
  | ind n ih =>
      rw [copyRange]
      split
      · rename_i more
        have step : 0 < readChunk8 := by decide
        refine .bind (Outcome.returns_ofExcept fun buf _ => buf.2) fun buf size => ?_
        refine .bind (ih (len - (done + min (len - done) readChunk8)) (by omega) rfl) fun rest tail => ?_
        change (buf.1 ++ rest).length = n
        rw [List.length_append, size, tail]
        omega
      · change ([] : Bytes).length = n
        rw [List.length_nil]
        omega

theorem inlineRange_length {blobOffset len : UInt64}
    (fits : blobOffset.toNat + len.toNat < 2 ^ 64) (inside : blobOffset.toNat + len.toNat ≤ blob.length) :
    (inlineRange blob blobOffset len).Returns fun b => b.length = len.toNat := by
  have stop : (blobOffset + len).toNat = blobOffset.toNat + len.toNat := by
    rw [UInt64.toNat_add, Nat.mod_eq_of_lt fits]
  have bounds : blobOffset ≤ blobOffset + len ∧ (blobOffset + len).toNat ≤ blob.length := by
    rw [UInt64.le_iff_toNat_le, stop]
    omega
  rw [inlineRange, if_pos bounds]
  change ((blob.drop blobOffset.toNat).take _).length = _
  rw [List.length_take, List.length_drop, stop]
  omega

theorem writeOps_length {ops : List PlanOp} (inside : ∀ op ∈ ops, op.inBlob blob) :
    (writeOps blob old id ops).Returns fun b =>
      b.length = totalLen (ops.filter fun op => op.newEntryId = id) := by
  induction ops with
  | nil => exact rfl
  | cons op rest ih =>
      have later := ih fun op mem => inside op (List.mem_cons_of_mem _ mem)
      unfold writeOps
      by_cases mine : op.newEntryId = id
      · rw [if_pos mine, List.filter_cons_of_pos (by simpa using mine), totalLen, List.map_cons, List.sum_cons,
          ← totalLen]
        refine .bind (P := fun b => b.length = op.len.toNat) ?_ fun bytes size => .bind later fun tail length => ?_
        · cases op with
          | copyOld => exact copyRange_length
          | inlined _ _ len blobOffset =>
              obtain ⟨fits, within⟩ := inside _ List.mem_cons_self
              exact inlineRange_length fits within
        · change (bytes ++ tail).length = _
          rw [List.length_append, size, length]
      · rw [if_neg mine, List.filter_cons_of_neg (by simpa using mine)]
        exact later

end Writing

section Executable
variable {plan : OfflinePlan}

/-- The range of an inline operation lies in the blob, in numbers that do not wrap. -/
def PlanOp.InsideBlob (blob : Bytes) : PlanOp → Prop
  | .copyOld .. => True
  | .inlined _ _ len blobOffset => blobOffset.toNat + len.toNat ≤ blob.length

/-- Each file is tiled, the inline ranges lie in the blob when the plan may be applied, and
writing a file then gives its declared size or an error. -/
structure OfflinePlan.Executable (plan : OfflinePlan) : Prop where
  tiles : ∀ e ∈ plan.newEntries, e.kind = .file → Tiles 0 (plan.opsOf e) e.size.toNat
  inlines : ensurePortable plan = .ok () → ∀ op ∈ plan.ops, op.InsideBlob plan.blob
  delivers : ensurePortable plan = .ok () → ∀ e ∈ plan.newEntries, e.kind = .file →
    ∀ old, (writeEntry plan e old).Returns fun b => b.length = e.size.toNat

/-- The lengths of each file's operations stay below 2^64, and a plan that is not portable
has inline lengths that show, or inline ranges that pass the check for portable plans. -/
structure OfflinePlan.Measured (plan : OfflinePlan) : Prop where
  sums : ∀ e ∈ plan.newEntries, e.kind = .file → totalLen (plan.opsOf e) < 2 ^ 64
  inlines : plan.kind = .portable ∨ plan.summary.inlineBytes ≠ 0 ∨ ∀ op ∈ plan.ops, op.inBlob plan.blob

theorem ensurePortable_ok :
    ensurePortable plan = .ok () ↔ plan.kind = .portable ∨ plan.summary.inlineBytes = 0 := by
  rw [ensurePortable]
  split
  · rename_i refused
    constructor
    · intro h
      cases h
    · rintro (portable | none_)
      · exact (refused.1 portable).elim
      · rw [none_] at refused
        exact (UInt64.lt_irrefl _ refused.2).elim
  · rename_i passed
    refine ⟨fun _ => ?_, fun _ => rfl⟩
    by_cases portable : plan.kind = .portable
    · exact .inl portable
    · right
      by_contra some_
      exact passed ⟨portable, UInt64.pos_iff_ne_zero.mpr some_⟩

theorem inBlob_iff {blob : Bytes} (small : blob.length ≤ maxBlobRaw) (op : PlanOp) :
    op.inBlob blob ↔ op.InsideBlob blob := by
  cases op with
  | copyOld => exact Iff.rfl
  | inlined id offset len blobOffset =>
      refine ⟨fun h => h.2, fun h => ⟨?_, h⟩⟩
      have bound : maxBlobRaw < 2 ^ 64 := by decide
      exact lt_of_le_of_lt (h.trans small) bound

/-- A decoded plan can be executed as it declares exactly when its lengths do not wrap. -/
theorem decode_executable {env : Env} {bytes : Bytes} (h : decode env bytes = .ok plan) :
    plan.Executable ↔ plan.Measured := by
  obtain ⟨valid, small⟩ := decode_ok h
  constructor
  · intro good
    refine ⟨fun e mem file => ?_, ?_⟩
    · have total := (good.tiles e mem file).total
      have size := e.size.toNat_lt
      omega
    · by_cases portable : plan.kind = .portable
      · exact .inl portable
      · by_cases hidden : plan.summary.inlineBytes = 0
        · exact .inr (.inr fun op mem => (inBlob_iff small op).mpr
            (good.inlines (ensurePortable_ok.mpr (.inr hidden)) op mem))
        · exact .inr (.inl hidden)
  · intro good
    have tiles : ∀ e ∈ plan.newEntries, e.kind = .file → Tiles 0 (plan.opsOf e) e.size.toNat := by
      intro e mem file
      have fits := good.sums e mem file
      exact (valid.wraps e mem file).tiles (by simpa using fits)
    have inside : ensurePortable plan = .ok () → ∀ op ∈ plan.ops, op.inBlob plan.blob := by
      intro passed
      rcases ensurePortable_ok.mp passed with portable | hidden
      · exact valid.inlines portable
      · rcases good.inlines with portable | shown | checked
        · exact valid.inlines portable
        · exact (shown hidden).elim
        · exact checked
    refine ⟨tiles, fun passed op mem => (inBlob_iff small op).mp (inside passed op mem), ?_⟩
    intro passed e mem file old
    refine (writeOps_length (inside passed)).mono fun b length => ?_
    have total := (tiles e mem file).total
    rw [length, total, Nat.zero_add, OfflinePlan.opsOf]

end Executable

section Samples

/-- The body of a plan for one file of one byte, copied by these operations. -/
def copyPlanBody (ops : Bytes) : Bytes :=
  planMagic ++ ([1, 0, 2, 1, 0, 0, 0, 0, 0, 0, 1, 0, 0, 0, 1, 0, 0, 1, 1, 0, 0, 1] ++
    (List.replicate 32 7 ++ (0 :: (ops ++ [0, 0]))))

noncomputable def copyPlanBytes (ops : Bytes) : Bytes :=
  copyPlanBody ops ++ (countingEnv.hashChunk (copyPlanBody ops)).1

def copyPlan (ops : List PlanOp) : OfflinePlan where
  kind := .portable
  mode := .artifact
  blockSize := 0
  oldLabel := ""
  oldSize := 0
  oldBlake3 := none
  newLabel := ""
  newSize := 0
  oldEntries := [⟨0, "", 0⟩]
  newEntries := [⟨0, "", .file, 1, false, none, some ⟨List.replicate 32 7, rfl⟩⟩]
  deleted := []
  ops
  blob := []

/-- One operation that copies the one byte. -/
def oneCopy : Bytes := [1, 1, 0, 0, 0, 0, 1]

/-- The byte, then 2^64 - 1 bytes more, then the byte again: the sums wrap to one byte. -/
def wrappingCopies : Bytes :=
  [3, 1, 0, 0, 0, 0, 1, 1, 0, 0, 0, 1, 255, 255, 255, 255, 255, 255, 255, 255, 255, 1, 1, 0, 0, 0, 0, 1]

theorem copies_decoded :
    decode countingEnv (copyPlanBytes oneCopy) = .ok (copyPlan [.copyOld 0 0 0 0 1]) ∧
    decode countingEnv (copyPlanBytes wrappingCopies) =
      .ok (copyPlan [.copyOld 0 0 0 0 1, .copyOld 0 0 0 1 (UInt64.ofNat (2 ^ 64 - 1)), .copyOld 0 0 0 0 1]) := by
  decide +kernel

theorem decode_oneCopy : decode countingEnv (copyPlanBytes oneCopy) =
    .ok (copyPlan [.copyOld 0 0 0 0 1]) := copies_decoded.1

theorem decode_executable_oneCopy : (copyPlan [.copyOld 0 0 0 0 1]).Executable := by
  refine (decode_executable decode_oneCopy).mpr ⟨fun e mem _ => ?_, .inl rfl⟩
  rw [List.mem_singleton.mp mem]
  decide +kernel

theorem decode_wrapping : decode countingEnv (copyPlanBytes wrappingCopies) =
    .ok (copyPlan [.copyOld 0 0 0 0 1, .copyOld 0 0 0 1 (UInt64.ofNat (2 ^ 64 - 1)), .copyOld 0 0 0 0 1]) :=
  copies_decoded.2

/-- A plan that decodes, with operations for 2^64 + 1 bytes of a file of one byte. -/
theorem wrapping_not_executable : ∃ plan, decode countingEnv (copyPlanBytes wrappingCopies) = .ok plan ∧
    ¬ plan.Executable := by
  refine ⟨_, decode_wrapping, fun good => ?_⟩
  have total := (good.tiles _ List.mem_cons_self rfl).total
  revert total
  decide +kernel

end Samples
end Cavs
