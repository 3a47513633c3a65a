import Cavs.PlanBuild

/-!
# What a plan that was built delivers

The operations of each file tile it, and each gives the bytes it stands for: a copy from the
old entry it names, the rest from the blob. So writing the entries of the plan gives the new
build, from the plan that was built as from the one that was read back.
-/
namespace Cavs
open FileProg (Bytes)
open Signature (CavsSignature SignatureKind WeakHashIndex DiffOp diffBytes EntryContent Describes ClearOf Grounded OpsTile)
open Outcome (ok_bind ok_of_bindO)
open List (append_assoc append_nil length_append length_singleton mem_append mem_singleton take_add)

section Write
variable {l : List EntryContent} {old : OldSource} {blob content : Bytes} {id : UInt32}

/-- The old files stand where the plan looks for them. -/
def ServesOld (l : List EntryContent) (old : OldSource) : Prop :=
  ∀ (id : UInt32) (offset : UInt64) (n : Nat) (e : EntryContent), l[id.toNat]? = some e →
    offset.toNat + n ≤ e.content.length → ∃ buf, old.readRange id offset n = .ok buf ∧
      buf.1 = (e.content.drop offset.toNat).take n

theorem copyRange_content (serves : ServesOld l old) {e : EntryContent} (there : l[id.toNat]? = some e)
    (word : e.content.length < 2 ^ 64) {offset : UInt64} {len done : Nat} (within : offset.toNat + len ≤ e.content.length) :
    copyRange old id offset len done = .ok ((e.content.drop (offset.toNat + done)).take (len - done)) := by
  induction hn : len - done using Nat.strongRecOn generalizing done with
  | ind n ih =>
      rw [copyRange]
      split
      · rename_i more
        have step : 0 < readChunk8 := by decide
        generalize taken : min (len - done) readChunk8 = m
        have place : (offset + UInt64.ofNat done).toNat = offset.toNat + done := by
          rw [UInt64.toNat_add, UInt64.toNat_ofNat_of_lt' (show done < 2 ^ 64 by omega), Nat.mod_eq_of_lt (by omega)]
        obtain ⟨buf, read, same⟩ := serves id (offset + UInt64.ofNat done) m e there (by omega)
        have rest := @ih (len - (done + m)) (by omega) (done + m) rfl
        dsimp only
        rw [read, rest, Outcome.ofExcept, ok_bind, ok_bind, same, place]
        have sum : n = m + (len - (done + m)) := by omega
        rw [sum, take_add, List.drop_drop, ← Nat.add_assoc]
        rfl
      · have zero : n = 0 := by omega
        rw [zero, List.take_zero]
        rfl

theorem inlineRange_content (word : blob.length < 2 ^ 64) {blobOffset len : UInt64}
    (within : blobOffset.toNat + len.toNat ≤ blob.length) :
    inlineRange blob blobOffset len = .ok ((blob.drop blobOffset.toNat).take len.toNat) := by
  have stop : (blobOffset + len).toNat = blobOffset.toNat + len.toNat := by
    rw [UInt64.toNat_add, Nat.mod_eq_of_lt (by omega)]
  have bounds : blobOffset ≤ blobOffset + len ∧ (blobOffset + len).toNat ≤ blob.length := by
    rw [UInt64.le_iff_toNat_le, stop]
    omega
  rw [inlineRange, if_pos bounds, stop, Nat.add_sub_cancel_left]

/-- The bytes an operation gives are those it stands for. -/
def PlanOp.Right (l : List EntryContent) (blob content : Bytes) : PlanOp → Prop
  | .copyOld old oldOffset _ newOffset len => ∃ e, l[old.toNat]? = some e ∧ e.content.length < 2 ^ 64 ∧
      oldOffset.toNat + len.toNat ≤ e.content.length ∧
      (e.content.drop oldOffset.toNat).take len.toNat = (content.drop newOffset.toNat).take len.toNat
  | .inlined _ newOffset len blobOffset => blobOffset.toNat + len.toNat ≤ blob.length ∧
      (blob.drop blobOffset.toNat).take len.toNat = (content.drop newOffset.toNat).take len.toNat

theorem PlanOp.Right.grow {op : PlanOp} (h : op.Right l blob content) (more : Bytes) :
    op.Right l (blob ++ more) content := by
  cases op with
  | copyOld => exact h
  | inlined _ newOffset len blobOffset =>
      obtain ⟨within, same⟩ := h
      refine ⟨by rw [length_append]; omega, ?_⟩
      rw [List.drop_append_of_le_length (by omega), List.take_append_of_le_length (by rw [List.length_drop]; omega)]
      exact same

theorem writeOps_content (serves : ServesOld l old) (word : blob.length < 2 ^ 64) {ops : List PlanOp} {pos stop : Nat}
    (tiles : Tiles pos (ops.filter fun op => op.newEntryId = id) stop)
    (right : ∀ op ∈ ops, op.newEntryId = id → op.Right l blob content) :
    writeOps blob old id ops = .ok ((content.drop pos).take (stop - pos)) := by
  induction ops generalizing pos with
  | nil =>
      have none : stop - pos = 0 := Nat.sub_eq_zero_of_le (Nat.le_of_eq tiles.symm)
      rw [none, List.take_zero]
      rfl
  | cons op rest ih =>
      have later := fun op' mem => right op' (List.mem_cons_of_mem op mem)
      unfold writeOps
      by_cases mine : op.newEntryId = id
      · rw [List.filter_cons_of_pos (by simpa using mine)] at tiles
        obtain ⟨start, tail⟩ := tiles
        have bytes : (match op with
            | .copyOld oldId offset _ _ len => copyRange old oldId offset len.toNat 0
            | .inlined _ _ len blobOffset => inlineRange blob blobOffset len) =
            .ok ((content.drop pos).take op.len.toNat) := by
          have good := right op List.mem_cons_self mine
          cases op with
          | copyOld oldId oldOffset new newOffset len =>
              obtain ⟨e, there, sized, within, same⟩ := good
              have start_ : newOffset.toNat = pos := start
              rw [start_] at same
              exact (copyRange_content serves there sized within).trans (congrArg Outcome.ok same)
          | inlined new newOffset len blobOffset =>
              obtain ⟨within, same⟩ := good
              have start_ : newOffset.toNat = pos := start
              rw [start_] at same
              exact (inlineRange_content word within).trans (congrArg Outcome.ok same)
        have total := tail.total
        have sum : stop - pos = op.len.toNat + (stop - (pos + op.len.toNat)) := by omega
        rw [if_pos mine]
        refine (congrArg (fun o : Outcome PlanError Bytes => o >>= fun bytes =>
          writeOps blob old id rest >>= fun more => pure (bytes ++ more)) bytes).trans ?_
        rw [ok_bind, ih tail later, sum, take_add, List.drop_drop]
        rfl
      · rw [List.filter_cons_of_neg (by simpa using mine)] at tiles
        rw [if_neg mine]
        exact ih tiles later

end Write

/-- An operation that a plan of this kind can carry out. -/
def PlanOp.Applies (kind : PlanKind) : PlanOp → Prop
  | .copyOld .. => True
  | .inlined .. => kind = .portable

namespace OfflinePlan

section Grow
variable {hashChunk : Bytes → ChunkHash} {l : List EntryContent} {sig : CavsSignature} {kind : PlanKind}
  {plan plan' : OfflinePlan} {bytes : Bytes} {id : UInt32}

/-- What a difference adds to a plan. -/
structure Added (l : List EntryContent) (kind : PlanKind) (bytes : Bytes) (id : UInt32) (plan plan' : OfflinePlan)
    (made : List PlanOp) (more : Bytes) : Prop where
  grown : plan' = { plan with ops := plan.ops ++ made, blob := plan.blob ++ more }
  mine : ∀ op ∈ made, op.newEntryId = id
  right : plan'.blob.length < 2 ^ 64 → ∀ op ∈ made, op.Applies kind → op.Right l plan'.blob bytes

theorem addOp_added {op : DiffOp} (old : ∀ e ∈ l, e.content.length < 2 ^ 64) (sized : bytes.length < 2 ^ 64)
    (grounded : Grounded l bytes op) (within : op.newOffset + op.len ≤ bytes.length)
    (h : addOp kind bytes id plan op = .ok plan') : ∃ made more, Added l kind bytes id plan plan' [made] more ∧
      made.newOffset.toNat = op.newOffset ∧ made.len.toNat = op.len := by
  have number : ∀ {n}, n ≤ bytes.length → (UInt64.ofNat n).toNat = n := fun small =>
    UInt64.toNat_ofNat_of_lt' (Nat.lt_of_le_of_lt small sized)
  cases op with
  | copyOldRange oldId oldOffset newOffset len =>
      cases h
      obtain ⟨e, there, inside, same⟩ := grounded
      have bound := old e (List.mem_of_getElem? there)
      have start : (UInt64.ofNat newOffset).toNat = newOffset := number (Nat.le_of_add_right_le within)
      have length : (UInt64.ofNat len).toNat = len := number (Nat.le_of_add_left_le within)
      have from_ : (UInt64.ofNat oldOffset).toNat = oldOffset := UInt64.toNat_ofNat_of_lt' (show oldOffset < 2 ^ 64 by omega)
      refine ⟨.copyOld oldId (UInt64.ofNat oldOffset) id (UInt64.ofNat newOffset) (UInt64.ofNat len), [],
        ⟨?_, ?_, ?_⟩, start, length⟩
      · rw [append_nil]
      · exact fun op mem => mem_singleton.mp mem ▸ rfl
      · intro _ op mem _
        rw [mem_singleton.mp mem]
        refine ⟨e, there, bound, ?_, ?_⟩
        · rw [from_, length]
          exact inside
        · rw [from_, length, start]
          exact same
  | inlineData newOffset len =>
      have start : (UInt64.ofNat newOffset).toNat = newOffset := number (Nat.le_of_add_right_le within)
      have length : (UInt64.ofNat len).toNat = len := number (Nat.le_of_add_left_le within)
      dsimp only [DiffOp.newOffset, DiffOp.len] at within
      dsimp only [addOp] at h
      by_cases analysis : kind ≠ .portable
      · rw [if_pos analysis] at h
        cases h
        refine ⟨.inlined id (UInt64.ofNat newOffset) (UInt64.ofNat len) (UInt64.ofNat plan.blob.length), [],
          ⟨?_, ?_, ?_⟩, start, length⟩
        · rw [append_nil]
        · exact fun op mem => mem_singleton.mp mem ▸ rfl
        · intro _ op mem applies
          rw [mem_singleton.mp mem] at applies
          exact absurd applies analysis
      · rw [if_neg analysis, if_pos within] at h
        cases h
        refine ⟨.inlined id (UInt64.ofNat newOffset) (UInt64.ofNat len) (UInt64.ofNat plan.blob.length),
          (bytes.drop newOffset).take len, ⟨rfl, ?_, ?_⟩, start, length⟩
        · exact fun op mem => mem_singleton.mp mem ▸ rfl
        · intro small op mem _
          have whole : ((bytes.drop newOffset).take len).length = len := by
            rw [List.length_take, List.length_drop]
            exact Nat.min_eq_left (Nat.le_sub_of_add_le' within)
          dsimp only at small
          rw [length_append, whole] at small
          have place : (UInt64.ofNat plan.blob.length).toNat = plan.blob.length :=
            UInt64.toNat_ofNat_of_lt' (show plan.blob.length < 2 ^ 64 by omega)
          rw [mem_singleton.mp mem]
          refine ⟨?_, ?_⟩
          · rw [place, length, length_append, whole]
          · rw [place, length, start, List.drop_left, List.take_of_length_le (Nat.le_of_eq whole)]

theorem addOps_added {ops : List DiffOp} {pos : Nat} (old : ∀ e ∈ l, e.content.length < 2 ^ 64)
    (sized : bytes.length < 2 ^ 64) (grounded : ∀ op ∈ ops, Grounded l bytes op) (tiles : OpsTile pos ops bytes.length)
    (h : addOps kind bytes id plan ops = .ok plan') : ∃ made more, Added l kind bytes id plan plan' made more ∧
      Tiles pos made bytes.length := by
  induction ops generalizing plan pos with
  | nil =>
      cases h
      exact ⟨[], [], ⟨by simp only [append_nil], nofun, nofun⟩, tiles⟩
  | cons op rest ih =>
      obtain ⟨next, first, later⟩ := ok_of_bindO h
      obtain ⟨start, tail⟩ := tiles
      have total := tail.le
      obtain ⟨one, some, added, place, length⟩ := addOp_added old sized (grounded op (.head _)) (by omega) first
      obtain ⟨made, more, added', tail'⟩ := ih (fun op' mem => grounded op' (.tail _ mem)) tail later
      have grown := added.grown
      have grown' := added'.grown
      refine ⟨one :: made, some ++ more, ⟨?_, ?_, ?_⟩, place.trans start, ?_⟩
      · rw [grown', grown]
        simp only [append_assoc, List.singleton_append]
      · exact List.forall_mem_cons.mpr ⟨added.mine one (.head _), added'.mine⟩
      · intro small
        have prefix_ : plan'.blob = next.blob ++ more := by rw [grown']
        have short : next.blob.length < 2 ^ 64 := by
          rw [prefix_, length_append] at small
          omega
        refine List.forall_mem_cons.mpr ⟨fun applies => ?_, added'.right small⟩
        rw [prefix_]
        exact (added.right short one (.head _) applies).grow more
      · rw [length]
        exact tail'

end Grow

section Walk
variable (hashChunk : Bytes → ChunkHash)

/-- The entry of a node that stands at a place of the walk. -/
def planEntry (i : Nat) : String × DiskNode → PlanEntry
  | (rel, .file content executable) =>
      ⟨UInt32.ofNat i, rel, .file, UInt64.ofNat content.length, executable, none, some (hashChunk content)⟩
  | (rel, .symlink target) =>
      ⟨UInt32.ofNat i, rel, .symlink, 0, false, some (String.ofList (lossy target)), none⟩
  | (rel, .directory) => ⟨UInt32.ofNat i, rel, .directory, 0, false, none, none⟩

variable {hashChunk} {l : List EntryContent} {sig : CavsSignature} {kind : PlanKind} {plan plan' : OfflinePlan}
  {bytes : Bytes} {id : UInt32} {x : String × DiskNode} {seen nodes : List (String × DiskNode)}

theorem addOps_keeps {ops : List DiffOp} (h : addOps kind bytes id plan ops = .ok plan') :
    ∃ made blob, plan' = { plan with ops := made, blob } := by
  induction ops generalizing plan with
  | nil =>
      cases h
      exact ⟨plan'.ops, plan'.blob, rfl⟩
  | cons op rest ih =>
      obtain ⟨next, first, later⟩ := ok_of_bindO h
      obtain ⟨made, blob, rfl⟩ := ih later
      cases op with
      | copyOldRange =>
          cases first
          exact ⟨made, blob, rfl⟩
      | inlineData =>
          dsimp only [addOp] at first
          split_ifs at first
          · cases first
            exact ⟨made, blob, rfl⟩
          · cases first
            exact ⟨made, blob, rfl⟩

theorem addNode_keeps (h : addNode hashChunk sig kind plan x = .ok plan') : ∃ ops blob newSize, plan' = { plan with
    ops, blob, newSize, newEntries := plan.newEntries ++ [planEntry hashChunk plan.newEntries.length x] } := by
  obtain ⟨rel, node⟩ := x
  cases node with
  | symlink _ | directory =>
      cases h
      exact ⟨plan.ops, plan.blob, plan.newSize, rfl⟩
  | file content executable =>
      dsimp only [addNode, addFile] at h
      split at h
      · cases h
      · obtain ⟨next, first, last⟩ := ok_of_bindO h
        obtain ⟨made, blob, rfl⟩ := addOps_keeps first
        cases last
        exact ⟨made, blob, _, rfl⟩

/-- Every node becomes an entry, in order. -/
theorem addNodes_keeps (h : addNodes hashChunk sig kind plan nodes = .ok plan') : ∃ ops blob newSize, plan' = { plan with
    ops, blob, newSize
    newEntries := plan.newEntries ++ (nodes.zipIdx plan.newEntries.length).map fun x => planEntry hashChunk x.2 x.1 } := by
  induction nodes generalizing plan with
  | nil =>
      cases h
      exact ⟨plan'.ops, plan'.blob, plan'.newSize, by simp⟩
  | cons x nodes ih =>
      obtain ⟨⟨⟩, -, h⟩ := ok_of_bindO h
      obtain ⟨next, first, later⟩ := ok_of_bindO h
      obtain ⟨ops, blob, newSize, rfl⟩ := addNode_keeps first
      obtain ⟨ops', blob', newSize', rfl⟩ := ih later
      refine ⟨ops', blob', newSize', ?_⟩
      simp only [length_append, length_singleton, append_assoc, List.zipIdx_cons, List.map_cons,
        List.singleton_append]

/-- A plan in the making: the operations of each file that was seen tile it and give its bytes. -/
structure Laid (l : List EntryContent) (kind : PlanKind) (seen : List (String × DiskNode)) (plan : OfflinePlan) : Prop where
  count : plan.newEntries.length = seen.length
  ids : ∀ op ∈ plan.ops, ∃ i < seen.length, op.newEntryId = UInt32.ofNat i
  tiles : ∀ i rel content executable, seen[i]? = some (rel, .file content executable) →
    Tiles 0 (plan.ops.filter fun op => op.newEntryId = UInt32.ofNat i) content.length
  right : plan.blob.length < 2 ^ 64 → ∀ i rel content executable, seen[i]? = some (rel, .file content executable) →
    ∀ op ∈ plan.ops, op.newEntryId = UInt32.ofNat i → op.Applies kind → op.Right l plan.blob content

theorem seen_snoc {i : Nat} {y : String × DiskNode} (there : (seen ++ [x])[i]? = some y) :
    seen[i]? = some y ∨ i = seen.length ∧ x = y := by
  by_cases before : i < seen.length
  · rw [List.getElem?_append_left before] at there
    exact .inl there
  · rw [List.getElem?_append_right (Nat.le_of_not_lt before)] at there
    obtain ⟨none, same⟩ := List.getElem?_eq_some_iff.mp there
    rw [length_singleton] at none
    refine .inr ⟨by omega, ?_⟩
    rw [← same, List.getElem_singleton]

/-- A node that is no file changes nothing that is said of files. -/
theorem Laid.skip (h : Laid l kind seen plan) (count : plan'.newEntries.length = plan.newEntries.length + 1)
    (ops : plan'.ops = plan.ops) (blob : plan'.blob = plan.blob) (other : ∀ content executable, x.2 ≠ .file content executable) :
    Laid l kind (seen ++ [x]) plan' := by
  have earlier : ∀ {i : Nat} {rel : String} {content : Bytes} {executable : Bool},
      (seen ++ [x])[i]? = some (rel, .file content executable) → seen[i]? = some (rel, .file content executable) := by
    intro i rel content executable there
    rcases seen_snoc there with there | ⟨-, rfl⟩
    · exact there
    · exact absurd rfl (other content executable)
  constructor
  · rw [count, h.count, length_append, length_singleton]
  · intro op mem
    rw [ops] at mem
    obtain ⟨i, before, mine⟩ := h.ids op mem
    exact ⟨i, by rw [length_append]; exact Nat.lt_add_right _ before, mine⟩
  · intro i rel content executable there
    rw [ops]
    exact h.tiles i rel content executable (earlier there)
  · rw [ops, blob]
    exact fun small i rel content executable there => h.right small i rel content executable (earlier there)

theorem Laid.file {rel : String} {content : Bytes} {executable : Bool} {made : List PlanOp} {more : Bytes}
    (h : Laid l kind seen plan) (few : seen.length < 2 ^ 32)
    (added : Added l kind content (UInt32.ofNat seen.length) plan plan' made more) (tiles : Tiles 0 made content.length)
    {last : OfflinePlan} (count : last.newEntries.length = plan.newEntries.length + 1) (ops : last.ops = plan'.ops)
    (blob : last.blob = plan'.blob) : Laid l kind (seen ++ [(rel, .file content executable)]) last := by
  have ops_ : last.ops = plan.ops ++ made := by rw [ops, added.grown]
  have blob_ : last.blob = plan.blob ++ more := by rw [blob, added.grown]
  have apart : ∀ {i}, i < seen.length → UInt32.ofNat i ≠ UInt32.ofNat seen.length := fun before same =>
    absurd (Signature.ofNat_inj32 (before.trans few) few same) (Nat.ne_of_lt before)
  have fresh : ∀ op ∈ plan.ops, op.newEntryId ≠ UInt32.ofNat seen.length := by
    intro op mem same
    obtain ⟨i, before, mine⟩ := h.ids op mem
    exact apart before (mine.symm.trans same)
  constructor
  · rw [count, h.count, length_append, length_singleton]
  · intro op mem
    rw [length_append, length_singleton]
    rcases mem_append.mp (ops_ ▸ mem) with mem | mem
    · obtain ⟨i, before, mine⟩ := h.ids op mem
      exact ⟨i, Nat.lt_succ_of_lt before, mine⟩
    · exact ⟨seen.length, Nat.lt_succ_self _, added.mine op mem⟩
  · intro i rel' content' executable' there
    rw [ops_, List.filter_append]
    rcases seen_snoc there with there | ⟨rfl, same⟩
    · have before := (List.getElem?_eq_some_iff.mp there).1
      have none : made.filter (fun op => op.newEntryId = UInt32.ofNat i) = [] := by
        rw [List.filter_eq_nil_iff]
        intro op mem
        rw [added.mine op mem, decide_eq_true_eq]
        exact (apart before).symm
      rw [none, append_nil]
      exact h.tiles i rel' content' executable' there
    · cases same
      have none : plan.ops.filter (fun op => op.newEntryId = UInt32.ofNat seen.length) = [] := by
        rw [List.filter_eq_nil_iff]
        intro op mem
        rw [decide_eq_true_eq]
        exact fresh op mem
      have all : made.filter (fun op => op.newEntryId = UInt32.ofNat seen.length) = made := by
        rw [List.filter_eq_self]
        intro op mem
        exact decide_eq_true (added.mine op mem)
      rw [none, all, List.nil_append]
      exact tiles
  · intro small i rel' content' executable' there op mem mine applies
    rw [blob] at small ⊢
    rw [ops_] at mem
    rcases seen_snoc there with there | ⟨rfl, same⟩
    · have before := (List.getElem?_eq_some_iff.mp there).1
      rcases mem_append.mp mem with mem | mem
      · rw [← blob, blob_, length_append] at small
        rw [← blob, blob_]
        exact (h.right (by omega) i rel' content' executable' there op mem mine applies).grow more
      · exact absurd (mine.symm.trans (added.mine op mem)) (apart before)
    · cases same
      rcases mem_append.mp mem with mem | mem
      · exact absurd mine (fresh op mem)
      · exact added.right small op mem applies

/-- What a difference from the old entries needs to be right about new bytes. -/
structure Old (hashChunk : Bytes → ChunkHash) (l : List EntryContent) (sig : CavsSignature) : Prop where
  describes : Describes hashChunk l sig
  sized : ∀ e ∈ l, e.content.length < 2 ^ 64

theorem addNode_laid (old : Old hashChunk l sig) (h : Laid l kind seen plan) (few : seen.length < 2 ^ 32)
    (sized : x.2.content.length < 2 ^ 64) (clear : ClearOf hashChunk l sig.blockSize.toNat x.2.content)
    (run : addNode hashChunk sig kind plan x = .ok plan') : Laid l kind (seen ++ [x]) plan' := by
  obtain ⟨rel, node⟩ := x
  cases node with
  | symlink _ | directory =>
      cases run
      exact h.skip (by simp) rfl rfl nofun
  | file content executable =>
      obtain ⟨diff, made_, sound⟩ := @Signature.diffBytes_spec hashChunk l sig content
        (if plan.mode = .directory then some rel else none) old.describes clear
      dsimp only [addNode, addFile] at run
      rw [made_] at run
      obtain ⟨next, first, last⟩ := ok_of_bindO run
      obtain ⟨made, more, added, tiles⟩ := addOps_added old.sized sized sound.grounded sound.tiles first
      cases last
      rw [h.count] at added
      have count : next.newEntries.length = plan.newEntries.length := by rw [added.grown]
      exact h.file few added tiles (by simp [count]) rfl rfl

theorem addNodes_laid (old : Old hashChunk l sig) (h : Laid l kind seen plan) (few : seen.length + nodes.length ≤ 2 ^ 32)
    (sized : ∀ x ∈ nodes, x.2.content.length < 2 ^ 64)
    (clear : ∀ x ∈ nodes, ClearOf hashChunk l sig.blockSize.toNat x.2.content)
    (run : addNodes hashChunk sig kind plan nodes = .ok plan') : Laid l kind (seen ++ nodes) plan' := by
  induction nodes generalizing seen plan with
  | nil =>
      cases run
      rwa [append_nil]
  | cons x nodes ih =>
      obtain ⟨⟨⟩, -, run⟩ := ok_of_bindO run
      obtain ⟨next, first, later⟩ := ok_of_bindO run
      rw [List.length_cons] at few
      have step := addNode_laid old h (by omega) (sized x (.head _)) (clear x (.head _)) first
      have rest := ih step (by rw [length_append, length_singleton]; omega)
        (fun y mem => sized y (.tail _ mem)) (fun y mem => clear y (.tail _ mem)) later
      rwa [append_assoc] at rest

end Walk
end OfflinePlan
end Cavs
