import Cavs.BlockDiff
import Cavs.SignatureCalls
import Mathlib.Data.UInt

/-!
# The difference of new bytes from old blocks

Whatever is copied is in the old content, what is copied and what is sent make up the new
bytes, and no full block of the old content is missed by the window.
-/
namespace Cavs.Signature
open FileProg (Bytes)
open WeakHashIndex (build candidates)
open List (append_assoc append_nil drop_drop drop_zero flatten_cons foldl_cons getElem?_eq_getElem length_append
  length_cons length_drop length_replicate map_cons mem_append mem_append_left mem_append_right mem_cons
  mem_cons_of_mem mem_cons_self mem_filterMap mem_singleton sum_cons take_add)

section Rolling

def plainSum (window : Bytes) : UInt32 := (window.map UInt8.toUInt32).sum

/-- The first byte counts as often as the window is long, the last one once. -/
def weightedSum : Bytes → UInt32
  | [] => 0
  | x :: rest => UInt32.ofNat (rest.length + 1) * x.toUInt32 + weightedSum rest

theorem plainSum_cons (x : UInt8) (w : Bytes) : plainSum (x :: w) = x.toUInt32 + plainSum w := by
  rw [plainSum, map_cons, sum_cons]
  rfl

theorem plainSum_snoc (w : Bytes) (y : UInt8) : plainSum (w ++ [y]) = plainSum w + y.toUInt32 := by
  induction w with
  | nil => simp [plainSum]
  | cons x w ih => rw [List.cons_append, plainSum_cons, plainSum_cons, ih, UInt32.add_assoc]

theorem weightedSum_snoc (w : Bytes) (y : UInt8) :
    weightedSum (w ++ [y]) = weightedSum w + plainSum (w ++ [y]) := by
  induction w with
  | nil => simp [weightedSum, plainSum]
  | cons x w ih =>
      rw [List.cons_append, weightedSum, weightedSum, ih, plainSum_cons, length_append, List.length_singleton,
        UInt32.ofNat_add (w.length + 1) 1]
      grind

theorem foldl_sums (w : Bytes) (k : Nat) (a b : UInt32) :
    (w.zipIdx k).foldl (fun (s : UInt32 × UInt32) x =>
      (s.1 + x.1.toUInt32, s.2 + (UInt32.ofNat (k + w.length) - UInt32.ofNat x.2) * x.1.toUInt32)) (a, b) =
    (a + plainSum w, b + weightedSum w) := by
  induction w generalizing k a b with
  | nil => simp [plainSum, weightedSum]
  | cons x w ih =>
      have len : k + (x :: w).length = k + 1 + w.length := by
        rw [length_cons]
        omega
      have weight : UInt32.ofNat (k + 1 + w.length) - UInt32.ofNat k = UInt32.ofNat (w.length + 1) := by
        have split : k + 1 + w.length = k + (w.length + 1) := by omega
        rw [split, UInt32.ofNat_add]
        grind
      rw [len, List.zipIdx_cons, foldl_cons, ih, weight, plainSum_cons, weightedSum, UInt32.add_assoc, UInt32.add_assoc]

theorem rolling_new (w : Bytes) : RollingWeak.new w = ⟨plainSum w, weightedSum w, UInt32.ofNat w.length⟩ := by
  have sums := foldl_sums w 0 0 0
  rw [Nat.zero_add, UInt32.zero_add, UInt32.zero_add] at sums
  rw [RollingWeak.new, sums]

theorem rolling_digest (w : Bytes) : (RollingWeak.new w).digest = weak32 w := rfl

/-- Sliding a window is as good as summing it anew. -/
theorem rolling_roll (x y : UInt8) (w : Bytes) : (RollingWeak.new (x :: w)).roll x y = RollingWeak.new (w ++ [y]) := by
  rw [rolling_new, rolling_new, RollingWeak.roll]
  dsimp only
  have sum : plainSum (x :: w) - x.toUInt32 + y.toUInt32 = plainSum (w ++ [y]) := by
    rw [plainSum_cons, plainSum_snoc]
    grind
  rw [sum, weightedSum, weightedSum_snoc, length_cons, length_append, List.length_singleton]
  congr 1
  grind

/-- A window that was set down at the front of the data and moved on by that many bytes. -/
def rolledAt (data : Bytes) (window : Nat) : (pos : Nat) → RollingWeak
  | 0 => RollingWeak.new (data.take window)
  | pos + 1 => (rolledAt data window pos).roll (data.getD pos 0) (data.getD (pos + window) 0)

theorem rolledAt_eq {data : Bytes} {window pos : Nat} (inside : pos + window ≤ data.length) :
    rolledAt data window pos = RollingWeak.new ((data.drop pos).take window) := by
  induction pos with
  | zero => rfl
  | succ pos ih =>
      have out : data.drop pos = data[pos] :: data.drop (pos + 1) := List.drop_eq_getElem_cons (by omega)
      have byte (i : Nat) (small : i < data.length) : data.getD i 0 = data[i] := by
        rw [List.getD_eq_getElem?_getD, getElem?_eq_getElem small, Option.getD_some]
      rw [rolledAt, ih (by omega), byte pos (by omega)]
      cases window with
      | zero =>
          -- the byte that leaves an empty window is the one that enters it
          rw [Nat.add_zero, byte pos (by omega), List.take_zero, List.take_zero, rolling_new,
            RollingWeak.roll]
          simp [plainSum, weightedSum, UInt32.add_left_neg]
      | succ len =>
          have inp : (data.drop (pos + 1)).take (len + 1) = (data.drop (pos + 1)).take len ++ [data[pos + (len + 1)]] := by
            rw [List.take_add_one, List.getElem?_drop, getElem?_eq_getElem (by omega), Option.toList_some]
            congr 3
            omega
          rw [byte (pos + (len + 1)) (by omega), out, List.take_succ_cons, rolling_roll, inp]

/-- Rolling is recomputing: after any number of slides the digest is that of the window. -/
theorem rolled_digest (data : Bytes) (window pos : Nat) (inside : pos + window ≤ data.length) :
    (rolledAt data window pos).digest = weak32 ((data.drop pos).take window) := by
  rw [rolledAt_eq inside, rolling_digest]

theorem rolled_digest_moved : 3 + 2 ≤ 5 ∧
    (rolledAt [97, 98, 99, 100, 101] 2 3).digest = weak32 (([97, 98, 99, 100, 101] : Bytes).drop 3 |>.take 2) :=
  ⟨by decide, rolled_digest [97, 98, 99, 100, 101] 2 3 (by decide)⟩

end Rolling

section Pick
variable {α β : Type} {key : α → Int} {l : List α} {x : α}

theorem maxByKey_mem (h : maxByKey key l = some x) : x ∈ l := by
  have fold : ∀ (l : List α) (best : α), l.foldl (fun best y => if key best ≤ key y then y else best) best ∈ best :: l := by
    intro l
    induction l with
    | nil => exact fun best => mem_singleton.mpr rfl
    | cons y l ih =>
        intro best
        rw [foldl_cons]
        split
        · exact mem_cons_of_mem best (ih y)
        · rcases mem_cons.mp (ih best) with same | mem
          · rw [same]
            exact mem_cons_self
          · exact mem_cons_of_mem best (mem_cons_of_mem y mem)
  cases l with
  | nil => cases h
  | cons y l =>
      cases h
      exact fold l y

theorem maxByKey_none (h : maxByKey key l = none) : l = [] := by
  cases l with
  | nil => rfl
  | cons y l => cases h

theorem mapM_of_isSome {f : α → Option β} (all : ∀ x ∈ l, (f x).isSome = true) :
    ∃ ys, l.mapM f = some ys ∧ ∀ y, y ∈ ys ↔ ∃ x ∈ l, f x = some y := by
  induction l with
  | nil => exact ⟨[], rfl, fun y => by simp⟩
  | cons x l ih =>
      obtain ⟨first, got⟩ := Option.isSome_iff_exists.mp (all x mem_cons_self)
      obtain ⟨ys, rest, known⟩ := ih fun z mem => all z (mem_cons_of_mem x mem)
      refine ⟨first :: ys, ?_, fun y => ?_⟩
      · rw [List.mapM_cons, got, rest]
        rfl
      · rw [mem_cons, known]
        constructor
        · rintro (rfl | ⟨z, mem, found⟩)
          · exact ⟨x, mem_cons_self, got⟩
          · exact ⟨z, mem_cons_of_mem x mem, found⟩
        · rintro ⟨z, mem, found⟩
          rcases mem_cons.mp mem with rfl | mem
          · rw [got] at found
            exact .inl (Option.some.inj found).symm
          · exact .inr ⟨z, mem, found⟩

end Pick

section Find
variable {hashChunk : Bytes → ChunkHash} {sig : CavsSignature} {target : Option String} {prev : Option (UInt32 × Nat)}
  {weak : UInt32} {window : Bytes}

theorem mem_candidates {i : UInt32} : i ∈ (build sig).candidates weak ↔
    ∃ k b, sig.blocks[k]? = some b ∧ b.len = sig.blockSize ∧ b.weak32 = weak ∧ i = UInt32.ofNat k := by
  rw [candidates, build, mem_filterMap]
  constructor
  · rintro ⟨⟨w, j⟩, mem, found⟩
    obtain ⟨⟨b, k⟩, there, row⟩ := mem_filterMap.mp mem
    dsimp only at row found
    split at row
    · rename_i full
      cases row
      split at found
      · rename_i same
        cases found
        exact ⟨k, b, List.mem_zipIdx_iff_getElem?.mp there, full, same, rfl⟩
      · cases found
    · cases row
  · rintro ⟨k, b, there, full, same, rfl⟩
    refine ⟨(weak, UInt32.ofNat k), mem_filterMap.mpr ⟨(b, k), List.mem_zipIdx_iff_getElem?.mpr there, ?_⟩, if_pos rfl⟩
    dsimp only
    rw [if_pos full, same]

/-- An index never leads outside, even if it was cut to 32 bits. -/
theorem block_of_candidate {i : UInt32} (mem : i ∈ (build sig).candidates weak) :
    ((build sig).block i).isSome = true := by
  obtain ⟨k, b, there, -, -, rfl⟩ := mem_candidates.mp mem
  have within := (List.getElem?_eq_some_iff.mp there).1
  have below : (UInt32.ofNat k).toNat ≤ k := by
    rw [UInt32.toNat_ofNat']
    exact Nat.mod_le ..
  change (sig.blocks[(UInt32.ofNat k).toNat]?).isSome = true
  rw [getElem?_eq_getElem (below.trans_lt within)]
  rfl

/-- What is found is a candidate with the strong hash of the window, and nothing is found only
if no full block that the index leads to has it. -/
theorem find_spec : ∃ found, (build sig).find hashChunk weak window target prev = some found ∧
    (∀ b, found = some b → (∃ i ∈ (build sig).candidates weak, (build sig).block i = some b) ∧
      b.strongBlake3 = hashChunk window) ∧
    (found = none → ∀ k b, k < 2 ^ 32 → sig.blocks[k]? = some b → b.len = sig.blockSize → b.weak32 = weak →
      b.strongBlake3 ≠ hashChunk window) := by
  have each : ∀ i ∈ (build sig).candidates weak, ((build sig).block i).isSome = true :=
    fun i mem => block_of_candidate mem
  obtain ⟨blocks, all, known⟩ := mapM_of_isSome each
  have hit : ∀ k b, k < 2 ^ 32 → sig.blocks[k]? = some b → b.len = sig.blockSize → b.weak32 = weak → b ∈ blocks := by
    intro k b small there full same
    refine (known b).mpr ⟨UInt32.ofNat k, mem_candidates.mpr ⟨k, b, there, full, same, rfl⟩, ?_⟩
    change sig.blocks[(UInt32.ofNat k).toNat]? = some b
    rw [UInt32.toNat_ofNat_of_lt' small]
    exact there
  cases cands : (build sig).candidates weak with
  | nil =>
      rw [cands] at known
      refine ⟨none, by rw [WeakHashIndex.find, cands], nofun, fun _ k b small there full same => ?_⟩
      obtain ⟨i, mem, -⟩ := (known b).mp (hit k b small there full same)
      cases mem
  | cons i rest =>
      rw [cands] at all
      refine ⟨_, by rw [WeakHashIndex.find, cands]; dsimp only; rw [all]; rfl, fun b picked => ?_, fun none_ => ?_⟩
      · obtain ⟨mem, strong⟩ := List.mem_filter.mp (maxByKey_mem picked)
        have there := (known b).mp mem
        rw [cands] at there
        exact ⟨there, of_decide_eq_true strong⟩
      · intro k b small there full same strong
        have kept : b ∈ blocks.filter fun b => b.strongBlake3 = hashChunk window :=
          List.mem_filter.mpr ⟨hit k b small there full same, decide_eq_true strong⟩
        rw [maxByKey_none none_] at kept
        cases kept

end Find

section Ops
variable {l : List EntryContent} {new : Bytes} {size start stop last p : Nat} {op : DiffOp} {ops more out : List DiffOp}

def DiffOp.newOffset : DiffOp → Nat
  | .copyOldRange _ _ newOffset _ => newOffset
  | .inlineData newOffset _ => newOffset

def DiffOp.len : DiffOp → Nat
  | .copyOldRange _ _ _ len => len
  | .inlineData _ len => len

/-- The operations start one after another from `start` on and end at `stop`. -/
def OpsTile : (start : Nat) → List DiffOp → (stop : Nat) → Prop
  | start, [], stop => start = stop
  | start, op :: rest, stop => op.newOffset = start ∧ OpsTile (start + op.len) rest stop

theorem OpsTile.append (h : OpsTile start ops stop) (h' : OpsTile stop more last) : OpsTile start (ops ++ more) last := by
  induction ops generalizing start with
  | nil =>
      rw [show start = stop from h]
      exact h'
  | cons op ops ih => exact ⟨h.1, ih h.2⟩

theorem OpsTile.snoc (h : OpsTile start ops stop) (next : op.newOffset = stop) :
    OpsTile start (ops ++ [op]) (stop + op.len) :=
  h.append ⟨next, rfl⟩

theorem OpsTile.split (h : OpsTile start (ops ++ more) last) : ∃ stop, OpsTile start ops stop ∧ OpsTile stop more last := by
  induction ops generalizing start with
  | nil => exact ⟨start, rfl, h⟩
  | cons op ops ih =>
      obtain ⟨stop, first, later⟩ := ih h.2
      exact ⟨stop, ⟨h.1, first⟩, later⟩

theorem OpsTile.le (h : OpsTile start ops stop) : start ≤ stop := by
  induction ops generalizing start with
  | nil => exact Nat.le_of_eq h
  | cons op ops ih => exact Nat.le_of_add_right_le (ih h.2)

theorem coversFrom_iff {newLen : Nat} : coversFrom newLen start ops = true ↔ OpsTile start ops newLen := by
  induction ops generalizing start with
  | nil => exact decide_eq_true_iff
  | cons op ops ih => cases op <;> rw [coversFrom, Bool.and_eq_true, decide_eq_true_iff, ih] <;> rfl

/-- What is copied lies in its old entry and equals the new bytes; what is sent is not too
long. -/
def Grounded (l : List EntryContent) (new : Bytes) : DiffOp → Prop
  | .copyOldRange entryId oldOffset newOffset len => ∃ e, l[entryId.toNat]? = some e ∧
      oldOffset + len ≤ e.content.length ∧ (e.content.drop oldOffset).take len = (new.drop newOffset).take len
  | .inlineData _ len => len ≤ maxInlineData

/-- A copy has a byte in common with the window at `p`. -/
def DiffOp.Overlaps (size p : Nat) : DiffOp → Prop
  | .copyOldRange _ _ newOffset len => ∃ q, p ≤ q ∧ q < p + size ∧ newOffset ≤ q ∧ q < newOffset + len
  | .inlineData _ _ => False

/-- Two copies that are merged. -/
theorem Grounded.merge {id : UInt32} {po pn pl len : Nat} (h : Grounded l new (.copyOldRange id po pn pl))
    (h' : Grounded l new (.copyOldRange id (po + pl) (pn + pl) len)) :
    Grounded l new (.copyOldRange id po pn (pl + len)) := by
  obtain ⟨e, there, within, same⟩ := h
  obtain ⟨e', there', within', same'⟩ := h'
  rw [there, Option.some.injEq] at there'
  subst there'
  refine ⟨e, there, by omega, ?_⟩
  rw [take_add, take_add, drop_drop, drop_drop, same, same']

theorem coalesceStep_spec (tiles : OpsTile 0 out start) (grounded : ∀ o ∈ out, Grounded l new o)
    (next : op.newOffset = start) (good : Grounded l new op) :
    OpsTile 0 (coalesceStep out op) (start + op.len) ∧ (∀ o ∈ coalesceStep out op, Grounded l new o) ∧
      ∀ p, (∃ o ∈ out ++ [op], o.Overlaps size p) → ∃ o ∈ coalesceStep out op, o.Overlaps size p := by
  have plain : OpsTile 0 (out ++ [op]) (start + op.len) ∧ (∀ o ∈ out ++ [op], Grounded l new o) ∧
      ∀ p, (∃ o ∈ out ++ [op], o.Overlaps size p) → ∃ o ∈ out ++ [op], o.Overlaps size p := by
    refine ⟨tiles.snoc next, fun o mem => ?_, fun _ h => h⟩
    rcases mem_append.mp mem with old | new_
    · exact grounded o old
    · rw [mem_singleton.mp new_]
      exact good
  unfold coalesceStep
  split
  · rename_i pe po pn pl id o n len back
    split
    · rename_i joins
      obtain ⟨rfl, rfl, rfl⟩ := joins
      obtain ⟨init, rfl⟩ := List.getLast?_eq_some_iff.mp back
      rw [List.dropLast_concat]
      obtain ⟨stop, before, here, ends⟩ := tiles.split
      have first : pn = stop := here
      have merged : Grounded l new (.copyOldRange pe po pn (pl + len)) :=
        (grounded _ (mem_append_right _ (mem_singleton.mpr rfl))).merge good
      refine ⟨?_, fun x mem => ?_, ?_⟩
      · have joined : OpsTile 0 (init ++ [.copyOldRange pe po pn (pl + len)]) (stop + (pl + len)) := before.snoc first
        have ends_ : stop + pl = start := ends
        rw [← ends_, Nat.add_assoc]
        exact joined
      · rcases mem_append.mp mem with old | new_
        · exact grounded x (mem_append_left _ old)
        · rw [mem_singleton.mp new_]
          exact merged
      · rintro p ⟨x, mem, hit⟩
        have whole : DiffOp.copyOldRange pe po pn (pl + len) ∈ init ++ [.copyOldRange pe po pn (pl + len)] :=
          mem_append_right _ (mem_singleton.mpr rfl)
        rcases mem_append.mp mem with old | new_
        · rcases mem_append.mp old with early | late
          · exact ⟨x, mem_append_left _ early, hit⟩
          · rw [mem_singleton.mp late] at hit
            obtain ⟨q, h₁, h₂, h₃, h₄⟩ := hit
            exact ⟨_, whole, q, h₁, h₂, h₃, by omega⟩
        · rw [mem_singleton.mp new_] at hit
          obtain ⟨q, h₁, h₂, h₃, h₄⟩ := hit
          exact ⟨_, whole, q, h₁, h₂, by omega, by omega⟩
    · exact plain
  · exact plain

theorem coalesce_spec (tiles : OpsTile 0 ops stop) (grounded : ∀ o ∈ ops, Grounded l new o) :
    OpsTile 0 (coalesce ops) stop ∧ (∀ o ∈ coalesce ops, Grounded l new o) ∧
      ∀ p, (∃ o ∈ ops, o.Overlaps size p) → ∃ o ∈ coalesce ops, o.Overlaps size p := by
  have fold : ∀ (ops out : List DiffOp) (start : Nat), OpsTile 0 out start → OpsTile start ops stop →
      (∀ o ∈ out, Grounded l new o) → (∀ o ∈ ops, Grounded l new o) →
      OpsTile 0 (ops.foldl coalesceStep out) stop ∧ (∀ o ∈ ops.foldl coalesceStep out, Grounded l new o) ∧
        ∀ p, (∃ o ∈ out ++ ops, o.Overlaps size p) → ∃ o ∈ ops.foldl coalesceStep out, o.Overlaps size p := by
    intro ops
    induction ops with
    | nil =>
        intro out start before here known _
        rw [show start = stop from here] at before
        refine ⟨before, known, fun p hit => ?_⟩
        rwa [append_nil] at hit
    | cons op ops ih =>
        intro out start before here known coming
        obtain ⟨tiles', grounded', keeps⟩ := @coalesceStep_spec l new size start op out before known here.1
          (coming op mem_cons_self)
        obtain ⟨tiles'', grounded'', keeps'⟩ := ih _ _ tiles' here.2 grounded' fun o mem => coming o (mem_cons_of_mem op mem)
        refine ⟨tiles'', grounded'', fun p hit => keeps' p ?_⟩
        obtain ⟨o, mem, overlaps⟩ := hit
        rw [List.append_cons] at mem
        rcases mem_append.mp mem with old | later
        · obtain ⟨o', mem', overlaps'⟩ := keeps p ⟨o, old, overlaps⟩
          exact ⟨o', mem_append_left _ mem', overlaps'⟩
        · exact ⟨o, mem_append_right _ later, overlaps⟩
  obtain ⟨tiles', grounded', keeps⟩ := fold ops [] 0 rfl tiles nofun grounded
  exact ⟨tiles', grounded', keeps⟩

end Ops

section Old
variable {hashChunk : Bytes → ChunkHash} {l : List EntryContent} {size : Nat} {id : UInt32} {offset : UInt64}
  {pieces : List Bytes} {b : SignatureBlockHash}

/-- A row is the place of a piece. -/
theorem mem_rowsFrom (word : size < 2 ^ 32) (sized : ∀ p ∈ pieces, p.length ≤ size)
    (near : offset.toNat + pieces.flatten.length < 2 ^ 64) (mem : b ∈ rowsFrom hashChunk id offset pieces) :
    ∃ front piece back, pieces = front ++ piece :: back ∧ b.entryId = id ∧ b.strongBlake3 = hashChunk piece ∧
      b.offset.toNat = offset.toNat + front.flatten.length := by
  induction pieces generalizing offset with
  | nil => cases mem
  | cons p pieces ih =>
      rw [flatten_cons, length_append] at near
      rcases mem_cons.mp mem with rfl | mem
      · exact ⟨[], p, pieces, rfl, rfl, rfl, rfl⟩
      · have short := sized p mem_cons_self
        have len : (UInt32.ofNat p.length).toNat = p.length := UInt32.toNat_ofNat_of_lt' (short.trans_lt word)
        have next : (offset + (UInt32.ofNat p.length).toUInt64).toNat = offset.toNat + p.length := by
          rw [UInt64.toNat_add, UInt32.toNat_toUInt64, len]
          omega
        obtain ⟨front, piece, back, rfl, own, strong, place⟩ :=
          ih (fun q there => sized q (mem_cons_of_mem p there)) (by rw [next]; omega) mem
        refine ⟨p :: front, piece, back, rfl, own, strong, ?_⟩
        rw [place, next, flatten_cons, length_append, Nat.add_assoc]

theorem rowsFrom_map : (rowsFrom hashChunk id offset pieces).map (fun b => (b.len, b.weak32, b.strongBlake3)) =
    pieces.map fun piece => (UInt32.ofNat piece.length, weak32 piece, hashChunk piece) := by
  induction pieces generalizing offset with
  | nil => rfl
  | cons p pieces ih => exact congrArg (_ :: ·) ih

/-- Every piece has its row. -/
theorem rowsFrom_mem {piece : Bytes} (mem : piece ∈ pieces) : ∃ b ∈ rowsFrom hashChunk id offset pieces,
    b.len = UInt32.ofNat piece.length ∧ b.weak32 = weak32 piece ∧ b.strongBlake3 = hashChunk piece := by
  have listed := List.mem_map_of_mem (f := fun piece : Bytes => (UInt32.ofNat piece.length, weak32 piece, hashChunk piece)) mem
  rw [← @rowsFrom_map hashChunk id offset] at listed
  obtain ⟨b, there, same⟩ := List.mem_map.mp listed
  simp only [Prod.mk.injEq] at same
  exact ⟨b, there, same⟩

/-- A signature whose blocks are those of entries that are numbered by their places. -/
structure Describes (hashChunk : Bytes → ChunkHash) (l : List EntryContent) (sig : CavsSignature) : Prop where
  pos : 0 < sig.blockSize.toNat
  place : ∀ b ∈ sig.blocks, ∃ e piece, l[b.entryId.toNat]? = some e ∧ piece ∈ cut sig.blockSize.toNat e.content ∧
    b.strongBlake3 = hashChunk piece ∧ b.offset.toNat + piece.length ≤ e.content.length ∧
    (e.content.drop b.offset.toNat).take piece.length = piece
  row : ∀ e ∈ l, ∀ piece ∈ cut sig.blockSize.toNat e.content, piece.length = sig.blockSize.toNat →
    ∃ k b, k < 2 ^ 32 ∧ sig.blocks[k]? = some b ∧ b.len = sig.blockSize ∧ b.weak32 = weak32 piece ∧
      b.strongBlake3 = hashChunk piece

theorem content_word {blockSize : UInt32} (pos : 0 < blockSize.toNat) (few : blockCount blockSize.toNat l ≤ 2 ^ 32)
    {e : EntryContent} (mem : e ∈ l) : e.content.length < 2 ^ 64 :=
  have word := blockSize.toNat_lt
  calc e.content.length ≤ blockCount blockSize.toNat l * blockSize.toNat := content_length_le pos mem
    _ ≤ 2 ^ 32 * (2 ^ 32 - 1) := Nat.mul_le_mul few (by omega)
    _ < 2 ^ 64 := by decide

theorem signatureOf_describes {kind : SignatureKind} {blockSize : UInt32} {profile label : String}
    (pos : 0 < blockSize.toNat) (few : l.length ≤ 2 ^ 32) (few' : blockCount blockSize.toNat l ≤ 2 ^ 32) :
    Describes hashChunk l (signatureOf hashChunk kind blockSize profile label l) := by
  have word := blockSize.toNat_lt
  have pieces : ∀ e : EntryContent, ∀ p ∈ cut blockSize.toNat e.content, p.length ≤ blockSize.toNat :=
    fun e p mem => (cut_sized pos _ p mem).2
  refine ⟨pos, fun b mem => ?_, fun e mem piece there full => ?_⟩
  · obtain ⟨⟨e, i⟩, numbered, row⟩ := List.mem_flatMap.mp mem
    have there := List.mem_zipIdx_iff_getElem?.mp numbered
    have within := (List.getElem?_eq_some_iff.mp there).1
    have whole : (cut blockSize.toNat e.content).flatten = e.content := cut_flatten pos _
    have zero : (0 : UInt64).toNat = 0 := rfl
    have bound : e.content.length < 2 ^ 64 := content_word pos few' (List.fst_mem_of_mem_zipIdx numbered)
    obtain ⟨front, piece, back, split, own, strong, place⟩ := mem_rowsFrom word (pieces e)
      (by rw [whole, zero, Nat.zero_add]; exact bound) row
    rw [zero, Nat.zero_add] at place
    have content : e.content = front.flatten ++ (piece ++ back.flatten) := by
      rw [← whole, split, List.flatten_append, flatten_cons]
    have index : (UInt32.ofNat i).toNat = i := UInt32.toNat_ofNat_of_lt' (within.trans_le few)
    refine ⟨e, piece, ?_, ?_, strong, ?_, ?_⟩
    · rw [own, index]
      exact there
    · change piece ∈ cut blockSize.toNat e.content
      rw [split]
      exact mem_append_right _ mem_cons_self
    · rw [place, content, length_append, length_append]
      omega
    · rw [place, content, List.drop_left, List.take_left]
  · obtain ⟨i, within, rfl⟩ := List.getElem_of_mem mem
    have numbered : (l[i], i) ∈ l.zipIdx := List.mem_zipIdx_iff_getElem?.mpr (getElem?_eq_getElem within)
    obtain ⟨b, row, len, weak, strong⟩ := @rowsFrom_mem hashChunk (UInt32.ofNat i) 0 _ _ there
    have known : b ∈ (signatureOf hashChunk kind blockSize profile label l).blocks :=
      List.mem_flatMap.mpr ⟨_, numbered, row⟩
    obtain ⟨k, small, rfl⟩ := List.getElem_of_mem known
    have count : (signatureOf hashChunk kind blockSize profile label l).blocks.length = blockCount blockSize.toNat l :=
      rows_length 0
    refine ⟨k, _, by omega, getElem?_eq_getElem small, ?_, weak, strong⟩
    rw [len]
    change UInt32.ofNat piece.length = blockSize
    have full_ : piece.length = blockSize.toNat := full
    rw [full_, UInt32.ofNat_toNat]

end Old

section Scan
variable {hashChunk : Bytes → ChunkHash} {l : List EntryContent} {sig : CavsSignature} {new : Bytes}
  {target : Option String} {s : DiffState} {pos : Nat} {size : Nat}

theorem emitInline_spec {fuel at_ stop : Nat} (le : at_ ≤ stop) (enough : stop - at_ ≤ fuel) :
    ∃ more, emitInline fuel s at_ stop = { s with
        rawOps := s.rawOps ++ more
        inlineBytes := s.inlineBytes + (stop - at_)
        opsBeforeCoalescing := s.opsBeforeCoalescing + more.length } ∧
      OpsTile at_ more stop ∧ ∀ o ∈ more, Grounded l new o := by
  induction fuel generalizing s at_ with
  | zero =>
      obtain rfl : at_ = stop := by omega
      refine ⟨[], ?_, rfl, nofun⟩
      rw [emitInline, append_nil, Nat.sub_self]
      rfl
  | succ fuel ih =>
      rw [emitInline]
      by_cases owes : at_ < stop
      · rw [if_pos owes]
        dsimp only
        have cap : 0 < maxInlineData := by decide
        generalize taken : min (stop - at_) maxInlineData = len
        obtain ⟨more, same, tiles, small⟩ := @ih { s with
          rawOps := s.rawOps ++ [.inlineData at_ len]
          inlineBytes := s.inlineBytes + len
          opsBeforeCoalescing := s.opsBeforeCoalescing + 1 } (at_ + len) (by omega) (by omega)
        refine ⟨.inlineData at_ len :: more, ?_, ⟨rfl, tiles⟩, List.forall_mem_cons.mpr ⟨?_, small⟩⟩
        · have sum : s.inlineBytes + len + (stop - (at_ + len)) = s.inlineBytes + (stop - at_) := by omega
          rw [same, sum, append_assoc, length_cons, Nat.add_assoc, Nat.add_comm 1]
          rfl
        · change len ≤ maxInlineData
          omega
      · obtain rfl : at_ = stop := by omega
        rw [if_neg owes, Nat.sub_self]
        exact ⟨[], by rw [append_nil]; rfl, rfl, nofun⟩

/-- The window at `p` is a full block of the old content. -/
def Hits (l : List EntryContent) (size : Nat) (new : Bytes) (p : Nat) : Prop :=
  p + size ≤ new.length ∧ ∃ e ∈ l, ∃ piece ∈ cut size e.content, piece.length = size ∧ (new.drop p).take size = piece

/-- The windows in front of `pos` have been looked at. -/
structure Scanned (l : List EntryContent) (size : Nat) (new : Bytes) (s : DiffState) (pos : Nat) : Prop where
  tiles : OpsTile 0 s.rawOps s.owedStart
  grounded : ∀ o ∈ s.rawOps, Grounded l new o
  total : s.reusedBytes + s.inlineBytes = s.owedStart
  owed : s.owedStart ≤ pos
  misses : ∀ p, p < pos → Hits l size new p → ∃ o ∈ s.rawOps, o.Overlaps size p

/-- What is owed up to `stop` is sent. -/
theorem Scanned.owe (h : Scanned l size new s pos) {stop : Nat} (le : s.owedStart ≤ stop) :
    OpsTile 0 (s.owe stop).rawOps stop ∧ (∀ o ∈ (s.owe stop).rawOps, Grounded l new o) ∧
      (s.owe stop).reusedBytes + (s.owe stop).inlineBytes = stop ∧
      ∀ p, p < pos → Hits l size new p → ∃ o ∈ (s.owe stop).rawOps, o.Overlaps size p := by
  obtain ⟨more, same, tiles, small⟩ := @emitInline_spec l new s (stop - s.owedStart) s.owedStart stop le (Nat.le_refl _)
  rw [DiffState.owe, same]
  refine ⟨h.tiles.append tiles, fun o mem => (mem_append.mp mem).elim (h.grounded o) (small o), ?_, fun p before hit => ?_⟩
  · have total := h.total
    dsimp only
    omega
  · obtain ⟨o, mem, overlaps⟩ := h.misses p before hit
    exact ⟨o, mem_append_left _ mem, overlaps⟩

/-- A window that is a block of the old content is copied. -/
theorem Scanned.copy (pos_ : 0 < size) (h : Scanned l size new s pos) {b : SignatureBlockHash}
    (good : Grounded l new (.copyOldRange b.entryId b.offset.toNat pos size)) :
    Scanned l size new (s.copy size pos b) (pos + size) := by
  obtain ⟨tiles, grounded, total, misses⟩ := h.owe h.owed
  constructor
  · exact tiles.snoc rfl
  · intro o mem
    rcases mem_append.mp mem with old | new_
    · exact grounded o old
    · rw [mem_singleton.mp new_]
      exact good
  · change (s.owe pos).reusedBytes + size + (s.owe pos).inlineBytes = pos + size
    omega
  · exact Nat.le_refl _
  · intro p before hit
    by_cases early : p < pos
    · obtain ⟨o, mem, overlaps⟩ := misses p early hit
      exact ⟨o, mem_append_left _ mem, overlaps⟩
    · refine ⟨_, mem_append_right _ (mem_singleton.mpr rfl), p, Nat.le_refl _, by omega, by omega, by omega⟩

/-- A window that is no block of the old content is passed. -/
theorem Scanned.pass (h : Scanned l size new s pos) (no : ¬ Hits l size new pos) :
    Scanned l size new s (pos + 1) := by
  refine ⟨h.tiles, h.grounded, h.total, h.owed.trans (Nat.le_succ _), fun p before hit => ?_⟩
  rcases Nat.lt_succ_iff_lt_or_eq.mp before with early | rfl
  · exact h.misses p early hit
  · exact absurd hit no

/-- The windows of the new bytes do not collide with the pieces of the old content. -/
def ClearOf (hashChunk : Bytes → ChunkHash) (l : List EntryContent) (size : Nat) (new : Bytes) : Prop :=
  ∀ e ∈ l, ∀ piece ∈ cut size e.content, ∀ p, p + size ≤ new.length →
    hashChunk piece = hashChunk ((new.drop p).take size) → piece = (new.drop p).take size

theorem window_succ {out inp : UInt8} (pos_ : 0 < size) (first : new[pos]? = some out)
    (last : new[pos + size]? = some inp) : ∃ w, (new.drop pos).take size = out :: w ∧
      (new.drop (pos + 1)).take size = w ++ [inp] := by
  obtain ⟨n, rfl⟩ : ∃ n, size = n + 1 := ⟨size - 1, by omega⟩
  refine ⟨(new.drop (pos + 1)).take n, ?_, ?_⟩
  · obtain ⟨within, rfl⟩ := List.getElem?_eq_some_iff.mp first
    rw [List.drop_eq_getElem_cons within, List.take_succ_cons]
  · rw [List.take_add_one, List.getElem?_drop]
    have same : pos + 1 + n = pos + (n + 1) := by omega
    rw [same, last]
    rfl

theorem slide_spec (old : Describes hashChunk l sig) (clear : ClearOf hashChunk l sig.blockSize.toNat new) {fuel : Nat}
    (h : Scanned l sig.blockSize.toNat new s pos) (room : pos + sig.blockSize.toNat ≤ new.length)
    (enough : new.length - pos < fuel) :
    ∃ s' pos', slide hashChunk (.build sig) new target fuel pos
        (.new ((new.drop pos).take sig.blockSize.toNat)) s = some s' ∧
      Scanned l sig.blockSize.toNat new s' pos' ∧ s'.owedStart ≤ new.length ∧
      new.length < pos' + sig.blockSize.toNat := by
  induction fuel generalizing s pos with
  | zero => omega
  | succ fuel ih =>
      have pos_ := old.pos
      obtain ⟨found, looked, sound, complete⟩ := @find_spec hashChunk sig target s.prevCopy
        (weak32 ((new.drop pos).take sig.blockSize.toNat)) ((new.drop pos).take sig.blockSize.toNat)
      have size : (build sig).sig.blockSize = sig.blockSize := rfl
      have window : ((new.drop pos).take sig.blockSize.toNat).length = sig.blockSize.toNat := by
        rw [List.length_take, length_drop]
        omega
      rw [slide, rolling_digest, size, looked, Option.bind_eq_bind, Option.bind_some]
      cases found with
      | some b =>
          obtain ⟨⟨i, -, mem⟩, strong⟩ := sound b rfl
          obtain ⟨e, piece, there, part, own, within, place⟩ := old.place b (List.mem_of_getElem? mem)
          have same : piece = (new.drop pos).take sig.blockSize.toNat :=
            clear e (List.mem_of_getElem? there) piece part pos room (own.symm.trans strong)
          have len : piece.length = sig.blockSize.toNat := by rw [same, window]
          rw [len] at within place
          have copied := h.copy pos_ (b := b) ⟨e, there, within, place.trans same⟩
          by_cases last : pos + sig.blockSize.toNat + sig.blockSize.toNat > new.length
          · refine ⟨_, _, if_pos last, copied, room, last⟩
          · obtain ⟨s', pos', ran, done⟩ := ih copied (by omega) (by omega)
            exact ⟨s', pos', (if_neg last).trans ran, done⟩
      | none =>
          have no : ¬ Hits l sig.blockSize.toNat new pos := by
            rintro ⟨-, e, mem, piece, part, full, same⟩
            obtain ⟨k, b, small, there, len, weak, strong⟩ := old.row e mem piece part full
            exact complete rfl k b small there len (by rw [weak, same]) (by rw [strong, same])
          have passed := h.pass no
          by_cases last : pos + sig.blockSize.toNat ≥ new.length
          · exact ⟨s, pos + 1, if_pos last, passed, h.owed.trans (by omega), by omega⟩
          · have out : new[pos]? = some new[pos] := getElem?_eq_getElem (by omega)
            have inp : new[pos + sig.blockSize.toNat]? = some new[pos + sig.blockSize.toNat] := getElem?_eq_getElem (by omega)
            obtain ⟨w, here, next⟩ := window_succ pos_ out inp
            obtain ⟨s', pos', ran, done⟩ := ih passed (by omega) (by omega)
            refine ⟨s', pos', (if_neg last).trans ?_, done⟩
            rw [here, out, inp, Option.bind_eq_bind, Option.bind_some, Option.bind_some, rolling_roll, ← next]
            exact ran

end Scan

section Whole
variable {hashChunk : Bytes → ChunkHash} {l : List EntryContent} {sig : CavsSignature} {new : Bytes}
  {target : Option String} {size : Nat}

/-- A block that is full is one of the pieces. -/
theorem full_mem_cut (pos : 0 < size) {content : Bytes} {k : Nat} (full : (k + 1) * size ≤ content.length) :
    (content.drop (k * size)).take size ∈ cut size content := by
  have aligned : ∀ (k fuel : Nat) (content : Bytes), (k + 1) * size ≤ content.length → content.length ≤ fuel →
      (content.drop (k * size)).take size ∈ cutFrom size fuel content := by
    intro k
    induction k with
    | zero =>
        intro fuel content full enough
        rcases content with _ | ⟨x, rest⟩
        · simp_all
        · obtain ⟨fuel, rfl⟩ := Nat.exists_eq_succ_of_ne_zero (Nat.ne_of_gt (Nat.zero_lt_of_lt enough))
          rw [Nat.zero_mul, drop_zero, cutFrom]
          exact mem_cons_self
    | succ k ih =>
        intro fuel content full enough
        rw [Nat.succ_mul] at full
        rcases content with _ | ⟨x, rest⟩
        · simp_all
        · obtain ⟨fuel, rfl⟩ := Nat.exists_eq_succ_of_ne_zero (Nat.ne_of_gt (Nat.zero_lt_of_lt enough))
          rw [Nat.succ_mul, Nat.add_comm (k * size), ← drop_drop, cutFrom]
          refine mem_cons_of_mem _ (ih fuel _ ?_ ?_)
          · rw [length_drop]
            omega
          · rw [length_drop]
            rw [length_cons] at enough ⊢
            omega
  exact aligned k content.length content full (Nat.le_refl _)

/-- What a difference promises: its operations make up the new bytes in order, copies are in
the old content and equal what they cover, what is sent is not too long, and a window that is
a full block of the old content is not sent as a whole. -/
structure DiffSound (l : List EntryContent) (size : Nat) (new : Bytes) (plan : DiffPlan) : Prop where
  tiles : OpsTile 0 plan.ops new.length
  grounded : ∀ o ∈ plan.ops, Grounded l new o
  total : plan.reusedBytes + plan.inlineBytes = new.length
  misses : ∀ p, p + size ≤ new.length → ∀ e ∈ l, ∀ k, (k + 1) * size ≤ e.content.length →
    (new.drop p).take size = (e.content.drop (k * size)).take size → ∃ o ∈ plan.ops, o.Overlaps size p

/-- Without full blocks the window is never one. -/
theorem Describes.no_hits (old : Describes hashChunk l sig) (none : (build sig).byWeak = []) (p : Nat) :
    ¬ Hits l sig.blockSize.toNat new p := by
  rintro ⟨-, e, mem, piece, part, full, -⟩
  obtain ⟨k, b, -, there, len, -, -⟩ := old.row e mem piece part full
  have cand := mem_candidates.mpr ⟨k, b, there, len, rfl, rfl⟩
  rw [candidates, none] at cand
  cases cand

theorem diffBytes_eq (index : WeakHashIndex) : diffBytes hashChunk index new target =
    (if index.sig.blockSize.toNat ≤ new.length ∧ index.byWeak ≠ [] then
      slide hashChunk index new target (new.length + 1) 0 (.new (new.take index.sig.blockSize.toNat)) ⟨[], 0, 0, 0, 0, none⟩
    else some ⟨[], 0, 0, 0, 0, none⟩).map fun s =>
      let s := s.owe new.length
      ⟨coalesce s.rawOps, s.reusedBytes, s.inlineBytes, s.opsBeforeCoalescing⟩ := by
  rw [diffBytes]
  split
  · exact (Option.map_eq_bind ..).symm
  · rfl

theorem diffBytes_spec (old : Describes hashChunk l sig) (clear : ClearOf hashChunk l sig.blockSize.toNat new) :
    ∃ plan, diffBytes hashChunk (.build sig) new target = some plan ∧ DiffSound l sig.blockSize.toNat new plan := by
  have pos := old.pos
  have fresh : Scanned l sig.blockSize.toNat new ⟨[], 0, 0, 0, 0, none⟩ 0 := ⟨rfl, nofun, rfl, Nat.le_refl _, nofun⟩
  -- Either the window has been everywhere, or it is nowhere a full block.
  obtain ⟨s, pos', ran, scanned, owed, everywhere⟩ : ∃ s pos',
      (if sig.blockSize.toNat ≤ new.length ∧ (build sig).byWeak ≠ [] then
        slide hashChunk (.build sig) new target (new.length + 1) 0 (.new (new.take sig.blockSize.toNat)) ⟨[], 0, 0, 0, 0, none⟩
      else some ⟨[], 0, 0, 0, 0, none⟩) = some s ∧ Scanned l sig.blockSize.toNat new s pos' ∧
      s.owedStart ≤ new.length ∧ ∀ p, Hits l sig.blockSize.toNat new p → p < pos' := by
    by_cases starts : sig.blockSize.toNat ≤ new.length ∧ (build sig).byWeak ≠ []
    · obtain ⟨s, pos', ran, scanned, owed, last⟩ := @slide_spec hashChunk l sig new target _ 0 old clear (new.length + 1)
        fresh (by omega) (by omega)
      exact ⟨s, pos', (if_pos starts).trans ran, scanned, owed, fun p hit => by have := hit.1; omega⟩
    · refine ⟨_, 0, if_neg starts, fresh, Nat.zero_le _, fun p hit => absurd starts ?_⟩
      have within := hit.1
      exact not_not_intro ⟨by omega, fun none => old.no_hits none p hit⟩
  obtain ⟨tiles, grounded, total, misses⟩ := scanned.owe owed
  obtain ⟨tiles', grounded', keeps⟩ := @coalesce_spec l new sig.blockSize.toNat _ _ tiles grounded
  refine ⟨⟨coalesce (s.owe new.length).rawOps, (s.owe new.length).reusedBytes, (s.owe new.length).inlineBytes,
    (s.owe new.length).opsBeforeCoalescing⟩, ?_, tiles', grounded', total, fun p room e mem k full same => ?_⟩
  · exact (diffBytes_eq _).trans (congrArg _ ran)
  · have len : ((e.content.drop (k * sig.blockSize.toNat)).take sig.blockSize.toNat).length = sig.blockSize.toNat := by
      rw [Nat.succ_mul] at full
      rw [List.length_take, length_drop]
      omega
    have hit : Hits l sig.blockSize.toNat new p := ⟨room, e, mem, _, full_mem_cut pos full, len, same⟩
    exact keeps p (misses p (everywhere p hit) hit)

/-- The difference of any bytes from the entries that calls told a builder: it exists and is
sound while entries and blocks are numbered with 32 bits and no hashes collide. -/
theorem diff_sound (hashChunk : Bytes → ChunkHash) (kind : SignatureKind) (requested : UInt32) (profile label : String)
    (calls : List BuilderCall) (b : SignatureBuilder)
    (ran : (SignatureBuilder.start kind requested profile).calls hashChunk calls = some b)
    (few : (entriesOf calls).length ≤ 2 ^ 32) (few' : blockCount (clamped requested).toNat (entriesOf calls) ≤ 2 ^ 32)
    (new : Bytes) (target : Option String) (clear : ClearOf hashChunk (entriesOf calls) (clamped requested).toNat new) :
    ∃ plan, diffBytes hashChunk (.build (b.finish hashChunk label)) new target = some plan ∧
      DiffSound (entriesOf calls) (clamped requested).toNat new plan := by
  have pos : 0 < (clamped requested).toNat := Nat.lt_of_lt_of_le (by decide) (clamped_bounds requested).1
  rw [finish_eq label ran]
  exact diffBytes_spec (signatureOf_describes pos few few') clear

/-- A block that is found, and bytes behind it that are sent. -/
theorem diff_sound_block : ∃ b, (SignatureBuilder.start .singleArtifact 1024 "fixed").calls numberHash
      [.beginEntry "a" false none, .append (.replicate 1024 7)] = some b ∧
    ∃ plan, diffBytes numberHash (.build (b.finish numberHash "v1")) (.replicate 1500 7) none = some plan ∧
      validateCoverage plan 1500 = true := by
  have piece : ∀ p ∈ cut 1024 (.replicate 1024 7), p = .replicate 1024 7 := by decide +kernel
  obtain ⟨plan, made, sound⟩ := diff_sound numberHash .singleArtifact 1024 "fixed" "v1"
    [.beginEntry "a" false none, .append (.replicate 1024 7)] _ rfl (by decide) (by decide +kernel) (.replicate 1500 7) none (by
      intro e mem p part q room _
      obtain rfl := mem_singleton.mp mem
      rw [length_replicate] at room
      have size : (clamped 1024).toNat = 1024 := rfl
      rw [size] at room
      have fits : min 1024 (1500 - q) = 1024 := by omega
      rw [piece p part, List.drop_replicate, List.take_replicate, size, fits])
  have tiles := sound.tiles
  rw [length_replicate] at tiles
  exact ⟨_, rfl, plan, made, coversFrom_iff.mpr tiles⟩

end Whole

section Wrapped
variable (hashChunk : Bytes → ChunkHash) {n : Nat} {plan : DiffPlan}

def zeros : Bytes := .replicate 1024 0

def ones : Bytes := .replicate 1024 1

/-- A file of zeros, `n` empty files and a file of ones. -/
def crowdedCalls (n : Nat) : List BuilderCall :=
  [.beginEntry "a" false none, .append zeros] ++ (.replicate n (.beginEntry "" false none) ++
    [.beginEntry "b" false none, .append ones])

def crowded (n : Nat) : List EntryContent :=
  ⟨"a", false, none, .file, zeros⟩ :: (.replicate n ⟨"", false, none, .file, []⟩ ++ [⟨"b", false, none, .file, ones⟩])

theorem tell_replicate (n : Nat) (l : List EntryContent) :
    (List.replicate n (.beginEntry "" false none)).foldl tell l = l ++ .replicate n ⟨"", false, none, .file, []⟩ := by
  induction n generalizing l with
  | zero => exact (append_nil l).symm
  | succ n ih => rw [List.replicate_succ, foldl_cons, ih, tell, append_assoc, List.replicate_succ, List.singleton_append]

theorem entriesOf_crowded (n : Nat) : entriesOf (crowdedCalls n) = crowded n := by
  have first : [BuilderCall.beginEntry "a" false none, .append zeros].foldl tell [] = [⟨"a", false, none, .file, zeros⟩] := rfl
  rw [entriesOf, crowdedCalls, List.foldl_append, first, List.foldl_append, tell_replicate]
  change (_ ++ [_]).modifyLast _ = _
  rw [List.modifyLast_concat]
  exact append_assoc ..

theorem begin_replicate (n : Nat) (b : SignatureBuilder) :
    ∃ b', b.calls hashChunk (List.replicate n (.beginEntry "" false none)) = some b' := by
  induction n generalizing b with
  | zero => exact ⟨b, rfl⟩
  | succ n ih => exact ih (b.beginEntry hashChunk "" false none)

theorem begin_append (b : SignatureBuilder) (path : String) (data : Bytes) :
    ∃ b', b.calls hashChunk [.beginEntry path false none, .append data] = some b' := by
  have begun : (b.beginEntry hashChunk path false none).entries ≠ [] := List.concat_ne_nil _ _
  refine ⟨(b.beginEntry hashChunk path false none).append hashChunk data, ?_⟩
  rw [SignatureBuilder.calls, List.foldlM_cons, SignatureBuilder.call, Option.bind_eq_bind, Option.bind_some, List.foldlM_cons,
    SignatureBuilder.call, if_neg begun]
  rfl

theorem crowdedCalls_run (n : Nat) (b : SignatureBuilder) : ∃ b', b.calls hashChunk (crowdedCalls n) = some b' := by
  obtain ⟨b₁, first⟩ := begin_append hashChunk b "a" zeros
  obtain ⟨b₂, empties⟩ := begin_replicate hashChunk n b₁
  obtain ⟨b₃, last⟩ := begin_append hashChunk b₂ "b" ones
  refine ⟨b₃, ?_⟩
  rw [SignatureBuilder.calls] at first empties last ⊢
  rw [crowdedCalls, List.foldlM_append, first, Option.bind_eq_bind, Option.bind_some, List.foldlM_append, empties]
  exact last

/-- Nothing can be copied for the ones at the end if all numbers are taken by the entries in
front. -/
theorem crowded_unsound (full : n + 1 = 2 ^ 32) (sound : DiffSound (crowded n) 1024 ones plan) :
    False := by
  have size : ones.length = 1024 := length_replicate
  obtain ⟨o, mem, overlaps⟩ := sound.misses 0 (by omega) ⟨"b", false, none, .file, ones⟩
    (mem_cons_of_mem _ (mem_append_right _ (mem_singleton.mpr rfl))) 0 (by dsimp only; omega) (by
      rw [Nat.zero_mul])
  cases o with
  | inlineData newOffset len => exact overlaps
  | copyOldRange id oldOffset newOffset len =>
      obtain ⟨q, -, below, from_, within⟩ := overlaps
      obtain ⟨e, there, -, same⟩ := sound.grounded _ mem
      have small := id.toNat_lt
      have blank : ∀ c ∈ e.content, c = 0 := by
        cases number : id.toNat with
        | zero =>
            rw [number] at there
            cases there
            exact fun c mem => List.eq_of_mem_replicate mem
        | succ k =>
            have early : k < (List.replicate n (⟨"", false, none, .file, []⟩ : EntryContent)).length := by
              rw [length_replicate]
              omega
            rw [number, crowded, List.getElem?_cons_succ, List.getElem?_append_left early, getElem?_eq_getElem early,
              List.getElem_replicate, Option.some.injEq] at there
            subst there
            nofun
      have one : (1 : UInt8) ∈ (ones.drop newOffset).take len := by
        rw [ones, List.drop_replicate, List.take_replicate]
        exact List.mem_replicate.mpr ⟨by omega, rfl⟩
      rw [← same] at one
      have zero := blank 1 (List.mem_of_mem_drop (List.mem_of_mem_take one))
      exact absurd zero (by decide)

/-- `n` blocks of zeros and one of ones. -/
def long (n : Nat) : EntryContent := ⟨"a", false, none, .file, (List.replicate n zeros).flatten ++ ones⟩

theorem cut_long (n : Nat) : cut 1024 (long n).content = .replicate n zeros ++ [ones] := by
  have sized : ∀ p ∈ List.replicate n zeros ++ [ones], p.length = 1024 := by
    intro p mem
    rcases mem_append.mp mem with zero | one
    · rw [List.eq_of_mem_replicate zero]
      exact length_replicate
    · rw [mem_singleton.mp one]
      exact length_replicate
  have whole := @cut_full 1024 _ [] sized (by decide)
  rw [append_nil, if_pos rfl, append_nil, List.flatten_append, List.flatten_singleton] at whole
  exact whole

theorem two_apart : weak32 zeros ≠ weak32 ones ∧ numberHash zeros ≠ numberHash ones := by
  constructor <;> decide +kernel

/-- The index of the ones is cut to that of the zeros in front. -/
theorem ones_not_found (some_ : 0 < n) (wraps : UInt32.ofNat n = 0) (prev : Option (UInt32 × Nat)) :
    (build (signatureOf numberHash .singleArtifact 1024 "fixed" "v1" [long n])).find numberHash (weak32 ones) ones
      none prev = some none := by
  have rows : (signatureOf numberHash .singleArtifact 1024 "fixed" "v1" [long n]).blocks =
      rowsFrom numberHash 0 0 (.replicate n zeros ++ [ones]) := by
    rw [← cut_long]
    exact append_nil _
  -- Each row has the hashes of its piece.
  have piece {k : Nat} {b : SignatureBlockHash} (there : (signatureOf numberHash .singleArtifact 1024 "fixed" "v1"
      [long n]).blocks[k]? = some b) : ∃ p, (List.replicate n zeros ++ [ones])[k]? = some p ∧ b.weak32 = weak32 p ∧
      b.strongBlake3 = numberHash p := by
    have listed := congrArg (fun l => l[k]?) (@rowsFrom_map numberHash 0 0 (.replicate n zeros ++ [ones]))
    rw [rows] at there
    simp only [List.getElem?_map, there, Option.map_some] at listed
    obtain ⟨p, found, same⟩ := Option.map_eq_some_iff.mp listed.symm
    simp only [Prod.mk.injEq] at same
    exact ⟨p, found, same.2.1.symm, same.2.2.symm⟩
  have front {k : Nat} (early : k < n) : (List.replicate n zeros ++ [ones])[k]? = some zeros := by
    rw [List.getElem?_append_left (by rwa [length_replicate]), List.getElem?_replicate_of_lt early]
  obtain ⟨found, looked, sound, -⟩ := @find_spec numberHash (signatureOf numberHash .singleArtifact 1024 "fixed" "v1" [long n])
    none prev (weak32 ones) ones
  rw [looked]
  cases found with
  | none => rfl
  | some b =>
      obtain ⟨⟨i, mem, there⟩, strong⟩ := sound b rfl
      obtain ⟨k, b', at_, -, weak, rfl⟩ := mem_candidates.mp mem
      obtain ⟨p, got, weak', -⟩ := piece at_
      have last : k = n := by
        have within := (List.getElem?_eq_some_iff.mp got).1
        rw [length_append, length_replicate, List.length_singleton] at within
        by_contra other
        rw [front (by omega), Option.some.injEq] at got
        rw [weak', ← got] at weak
        exact two_apart.1 weak
      subst last
      rw [wraps] at there
      obtain ⟨p', got', -, strong'⟩ := piece there
      have zero := front some_
      have index : (0 : UInt32).toNat = 0 := rfl
      rw [index, zero, Option.some.injEq] at got'
      rw [strong', ← got'] at strong
      exact absurd strong two_apart.2

variable {hashChunk} in
/-- All is sent if the only window is not found. -/
theorem diffBytes_single {sig : CavsSignature} {new : Bytes} {target : Option String}
    (single : new.length = sig.blockSize.toNat)
    (looked : (build sig).find hashChunk (weak32 new) new target none = some none)
    (made : diffBytes hashChunk (.build sig) new target = some plan) :
    plan.ops = coalesce ((⟨[], 0, 0, 0, 0, none⟩ : DiffState).owe new.length).rawOps := by
  have size : (build sig).sig.blockSize = sig.blockSize := rfl
  have window : new.take sig.blockSize.toNat = new := List.take_of_length_le single.le
  rw [diffBytes_eq, size] at made
  obtain ⟨s, ran, rfl⟩ := Option.map_eq_some_iff.mp made
  split at ran
  · rw [slide, rolling_digest, drop_zero, size, window, looked, Option.bind_eq_bind, Option.bind_some] at ran
    cases (if_pos (by omega)).symm.trans ran
    rfl
  · cases ran
    rfl

theorem long_unsound (some_ : 0 < n) (wraps : UInt32.ofNat n = 0)
    (made : diffBytes numberHash (.build (signatureOf numberHash .singleArtifact 1024 "fixed" "v1" [long n])) ones none = some plan)
    (sound : DiffSound [long n] 1024 ones plan) : False := by
  have size : ones.length = 1024 := length_replicate
  have front : (List.replicate n zeros).flatten.length = n * 1024 := by
    rw [List.length_flatten, List.map_replicate, List.sum_replicate, zeros, length_replicate, Nat.nsmul_eq_mul]
  obtain ⟨o, mem, overlaps⟩ := sound.misses 0 (by omega) (long n) (mem_singleton.mpr rfl) n (by
    rw [long, length_append, front, size]
    omega) (by rw [long, List.drop_left' front, drop_zero])
  have sent := diffBytes_single size (ones_not_found some_ wraps none) made
  have inline : coalesce ((⟨[], 0, 0, 0, 0, none⟩ : DiffState).owe 1024).rawOps = [.inlineData 0 1024] := by decide +kernel
  rw [sent, size, inline] at mem
  rw [mem_singleton.mp mem] at overlaps
  exact overlaps

theorem clear_of_two {l : List EntryContent} (two : ∀ e ∈ l, ∀ p ∈ cut 1024 e.content, p = zeros ∨ p = ones) :
    ClearOf numberHash l 1024 ones := by
  intro e mem piece part p room same
  have size : ones.length = 1024 := length_replicate
  obtain rfl : p = 0 := by omega
  rw [drop_zero, List.take_of_length_le size.le] at same ⊢
  rcases two e mem piece part with rfl | rfl
  · exact absurd same two_apart.2
  · rfl

theorem crowded_contents {e : EntryContent} (mem : e ∈ crowded n) :
    e.content = zeros ∨ e.content = [] ∨ e.content = ones := by
  rcases mem_cons.mp mem with rfl | mem
  · exact .inl rfl
  · rcases mem_append.mp mem with mem | mem
    · rw [List.eq_of_mem_replicate mem]
      exact .inr (.inl rfl)
    · rw [mem_singleton.mp mem]
      exact .inr (.inr rfl)

theorem cut_two : cut 1024 zeros = [zeros] ∧ cut 1024 ones = [ones] := by
  constructor <;> decide +kernel

/-- Neither the entries nor the blocks may be more than there are numbers. -/
theorem not_diff_sound :
    (¬ ∀ (hashChunk : Bytes → ChunkHash) (kind : SignatureKind) (requested : UInt32) (profile label : String)
      (calls : List BuilderCall) (b : SignatureBuilder),
      (SignatureBuilder.start kind requested profile).calls hashChunk calls = some b →
      blockCount (clamped requested).toNat (entriesOf calls) ≤ 2 ^ 32 → ∀ (new : Bytes) (target : Option String),
      ClearOf hashChunk (entriesOf calls) (clamped requested).toNat new →
      ∃ plan, diffBytes hashChunk (.build (b.finish hashChunk label)) new target = some plan ∧
        DiffSound (entriesOf calls) (clamped requested).toNat new plan) ∧
    ¬ ∀ (hashChunk : Bytes → ChunkHash) (kind : SignatureKind) (requested : UInt32) (profile label : String)
      (calls : List BuilderCall) (b : SignatureBuilder),
      (SignatureBuilder.start kind requested profile).calls hashChunk calls = some b →
      (entriesOf calls).length ≤ 2 ^ 32 → ∀ (new : Bytes) (target : Option String),
      ClearOf hashChunk (entriesOf calls) (clamped requested).toNat new →
      ∃ plan, diffBytes hashChunk (.build (b.finish hashChunk label)) new target = some plan ∧
        DiffSound (entriesOf calls) (clamped requested).toNat new plan := by
  have size : (clamped 1024).toNat = 1024 := rfl
  constructor
  · intro always
    obtain ⟨n, full⟩ : ∃ n, n + 1 = 2 ^ 32 := ⟨2 ^ 32 - 1, rfl⟩
    obtain ⟨b, ran⟩ := crowdedCalls_run numberHash n (.start .directoryContainer 1024 "fixed")
    have count : blockCount 1024 (crowded n) = 2 := by
      rw [blockCount, crowded, map_cons, List.map_append, List.map_replicate, List.map_singleton, sum_cons,
        List.sum_append_nat, cut_two.1, cut_two.2, List.sum_replicate]
      rfl
    obtain ⟨plan, -, sound⟩ := always numberHash .directoryContainer 1024 "fixed" "v1" (crowdedCalls n) b ran
      (by rw [entriesOf_crowded, size, count]; decide) ones none (by
        rw [entriesOf_crowded, size]
        refine clear_of_two fun e mem p part => ?_
        rcases crowded_contents mem with zero | none | one
        · rw [zero, cut_two.1] at part
          exact .inl (mem_singleton.mp part)
        · rw [none] at part
          cases part
        · rw [one, cut_two.2] at part
          exact .inr (mem_singleton.mp part))
    rw [entriesOf_crowded, size] at sound
    exact crowded_unsound full sound
  · intro always
    obtain ⟨n, full⟩ : ∃ n, n = 2 ^ 32 := ⟨2 ^ 32, rfl⟩
    have told : entriesOf [.beginEntry "a" false none, .append (long n).content] = [long n] := rfl
    obtain ⟨b, ran⟩ := begin_append numberHash (.start .singleArtifact 1024 "fixed") "a" (long n).content
    have signed := finish_eq "v1" ran
    obtain ⟨plan, made, sound⟩ := always numberHash .singleArtifact 1024 "fixed" "v1" _ b ran
      (by rw [told]; exact Nat.one_le_two_pow) ones none (by
        rw [told, size]
        refine clear_of_two fun e mem p part => ?_
        rw [mem_singleton.mp mem, cut_long] at part
        rcases mem_append.mp part with zero | one
        · exact .inl (List.eq_of_mem_replicate zero)
        · exact .inr (mem_singleton.mp one))
    rw [signed, told] at made
    rw [told, size] at sound
    exact long_unsound (by omega) (by rw [full]; rfl) made sound

end Wrapped

end Cavs.Signature
