import Cavs.BatchRead
import Mathlib.Data.List.Forall2

/-!
# A batch reads what single reads read

One range covers the chunks of its group and no more dead space than allowed; each chunk cut
out of it is what a read of that chunk alone gives. So a batch succeeds exactly when each of
its chunks can be read, in whatever order the packs are walked.
-/
namespace Cavs
open FileProg (Bytes IoError)
open BodyCursor (slice get slice_ok)
open Traced (bind_ok lift_events log_outcome ok_of_bind)
open Outcome (ok_bind ok_of_bindO)
open List (drop_zero forall_mem_cons getElem?_set_self length_cons length_drop mem_cons mem_cons_of_mem mem_cons_self
  mem_of_mem_take not_mem_nil pairwise_cons replicate)

def Wanted.stop (c : Wanted) : Nat := c.offset + c.storedLen.toNat

section Range
variable {files : FileView} {pack : String} {path : Path} {offset len start stop : Nat} {b range : Bytes}

theorem readFile_ok {f : IoError → StoreError} {p : Path} : readFile files f p = .ok b ↔ files.read p = .ok b := by
  unfold readFile
  cases files.read p with
  | ok b' => simp
  | error e => simp

theorem packRange_ok {file : Bytes} (word : packHeaderLen + offset < 2 ^ 64) : packRange pack file offset len = .ok b ↔
    packHeaderLen + offset + len + packFooterLen ≤ file.length ∧ b = (file.drop (packHeaderLen + offset)).take len := by
  have header : packHeaderLen = 16 := rfl
  have footer : packFooterLen = 40 := rfl
  simp only [packRange, Nat.mod_eq_of_lt word]
  split
  · rename_i outside
    constructor
    · intro h
      cases h
    · intro h
      omega
  · rename_i inside
    rw [Except.ok.injEq, eq_comm]
    constructor
    · intro h
      exact ⟨by omega, h⟩
    · exact And.right

/-- A range can be read when the file has it between its header and its footer. -/
theorem readPackRangeAt_ok (word : packHeaderLen + offset < 2 ^ 64) :
    readPackRangeAt files pack path offset len = .ok b ↔ ∃ file, files.read path = .ok file ∧
      packHeaderLen + offset + len + packFooterLen ≤ file.length ∧ b = (file.drop (packHeaderLen + offset)).take len := by
  unfold readPackRangeAt
  constructor
  · intro h
    obtain ⟨file, read, h⟩ := ok_of_bindO h
    refine ⟨file, readFile_ok.mp read, (packRange_ok word).mp (?_ : packRange pack file offset len = .ok b)⟩
    cases found : packRange pack file offset len with
    | ok b' =>
        rw [found] at h
        cases h
        rfl
    | error e =>
        rw [found] at h
        cases h
  · rintro ⟨file, read, inside, rfl⟩
    rw [readFile_ok.mpr read, ok_bind,
      show packRange pack file offset len = .ok _ from (packRange_ok word).mpr ⟨inside, rfl⟩]
    rfl

/-- What is cut out of a range is what a read of it alone gives. -/
theorem slice_of_range (near : packHeaderLen + stop < 2 ^ 64)
    (read : readPackRangeAt files pack path start (stop - start) = .ok range)
    (after : start ≤ offset) (before : offset + len ≤ stop) :
    ∃ b, (slice range (offset - start) (offset - start + len) : Outcome StoreError Bytes) = .ok b ∧
      readPackRangeAt files pack path offset len = .ok b := by
  obtain ⟨file, found, inside, rfl⟩ := (readPackRangeAt_ok (by omega)).mp read
  have width : ((file.drop (packHeaderLen + start)).take (stop - start)).length = stop - start := by
    rw [List.length_take_of_le]
    rw [length_drop]
    omega
  refine ⟨(file.drop (packHeaderLen + offset)).take len, ?_, (readPackRangeAt_ok (by omega)).mpr ⟨file, found, by omega, rfl⟩⟩
  rw [slice_ok (Nat.le_add_right _ _) (by rw [width]; omega), List.drop_take, List.drop_drop, List.take_take,
    Nat.add_sub_cancel_left, Nat.min_eq_left (by omega), show packHeaderLen + start + (offset - start) = packHeaderLen + offset by omega]

end Range

section Grow
variable {start stop : Nat} {rest : List Wanted} {r : Nat × Nat}

/-- How a range grew over the chunks that follow its first: it reaches over those it took in,
ends where one of them ends, and bridges no gap that is too wide. -/
structure RangeGrown (start stop : Nat) (rest : List Wanted) (r : Nat × Nat) : Prop where
  reach : stop ≤ r.1
  within : ∀ c ∈ rest.take r.2, c.stop ≤ r.1
  made : r.1 = stop ∨ ∃ c ∈ rest.take r.2, c.stop = r.1
  cap : r.1 = stop ∧ r.2 = 0 ∨ r.1 - start ≤ GlobalStore.maxCoalescedRange
  gap : ∀ a b, stop ≤ a → b ≤ r.1 → (∀ c ∈ rest.take r.2, c.stop ≤ a ∨ b ≤ c.offset) → b - a ≤ GlobalStore.maxCoalesceGap

theorem RangeGrown.stay : RangeGrown start stop rest (stop, 0) where
  reach := Nat.le_refl _
  within c mem := (not_mem_nil mem).elim
  made := .inl rfl
  cap := .inl ⟨rfl, rfl⟩
  gap a b after before _ := by
    dsimp only at before
    omega

theorem growRange_grown (ordered : start ≤ stop) (word : stop < 2 ^ 64) (words : ∀ c ∈ rest, c.stop < 2 ^ 64) :
    RangeGrown start stop rest (growRange start stop rest) := by
  induction rest generalizing stop with
  | nil => exact .stay
  | cons c rest ih =>
      obtain ⟨here, words⟩ := forall_mem_cons.mp words
      have end_ : wordAdd c.offset c.storedLen.toNat = c.stop := wordAdd_eq here
      have less : max c.stop stop < 2 ^ 64 := Nat.max_lt.mpr ⟨here, word⟩
      rw [growRange]
      simp only [end_, wordSub_eq (Nat.le_trans ordered (Nat.le_max_right _ _))]
      split
      · exact .stay
      rename_i close
      rw [not_or] at close
      have tail : RangeGrown start (max stop c.stop) rest (growRange start (max stop c.stop) rest) :=
        ih (by omega) (by omega) words
      generalize growRange start (max stop c.stop) rest = grown at tail
      have end_ : c.stop = c.offset + c.storedLen.toNat := rfl
      have reach := tail.reach
      constructor
      · dsimp only
        omega
      · rw [List.take_succ_cons, forall_mem_cons]
        exact ⟨by dsimp only; omega, tail.within⟩
      · dsimp only
        rcases tail.made with same | ⟨d, mem, same⟩
        · rcases Nat.le_total c.stop stop with below | above
          · exact .inl (by omega)
          · exact .inr ⟨c, mem_cons_self, by omega⟩
        · exact .inr ⟨d, mem_cons_of_mem _ mem, same⟩
      · right
        dsimp only
        rcases tail.cap with ⟨same, -⟩ | bounded
        · rw [same]
          omega
        · exact bounded
      · intro a b after before clear
        rw [List.take_succ_cons, forall_mem_cons] at clear
        rcases clear.1 with passed | ahead
        · exact tail.gap a b (by omega) before clear.2
        · omega

end Grow

section Asked
variable {files : FileView} {s : GlobalStore} {hashes : List ChunkHash} {hash : ChunkHash} {pack : String} {path : Path}
  {c : Wanted} {out : List (Option ChunkForm)} {x : ChunkForm}

/-- Where the chunk lies in a pack, if it does. -/
def spanOf (s : GlobalStore) (hash : ChunkHash) : Option PackSpan := do
  let info ← s.chunkGet (toHex hash)
  let pack ← info.pack
  let offset ← info.packOffset
  return ⟨pack, offset, offset + info.lenStored.toNat⟩

/-- The ranges that the chunks of the list have in packs. -/
def asked (s : GlobalStore) (hashes : List ChunkHash) : List PackSpan := hashes.filterMap (spanOf s)

/-- No place of a range that is asked for is too large for a machine word. -/
def Unwrapped (s : GlobalStore) (hashes : List ChunkHash) : Prop := ∀ q ∈ asked s hashes, packHeaderLen + q.stop < 2 ^ 64

/-- The request is for the chunk at its place in the input, which is in this pack. -/
def Asks (s : GlobalStore) (hashes : List ChunkHash) (pack : String) (c : Wanted) : Prop :=
  ∃ hash info, hashes[c.pos]? = some hash ∧ s.chunkGet (toHex hash) = some info ∧ info.pack = some pack ∧
    info.packOffset = some c.offset ∧ c.storedLen = info.lenStored ∧ c.flags = info.flags ∧ c.lenRaw = info.lenRaw

/-- What is filled in is what a read of the chunk at that place gives. -/
structure Right (files : FileView) (s : GlobalStore) (hashes : List ChunkHash) (out : List (Option ChunkForm)) : Prop where
  length : out.length = hashes.length
  reads : ∀ (i : Nat) (x : ChunkForm), out[i]? = some (some x) →
    ∃ hash, hashes[i]? = some hash ∧ readChunkStoredAt files s hash = .ok x

def Filled (out : List (Option ChunkForm)) (i : Nat) : Prop := ∃ x, out[i]? = some (some x)

theorem Asks.reads (files : FileView) (h : Asks s hashes pack c) : ∃ hash ∈ hashes, hashes[c.pos]? = some hash ∧
    readChunkStoredAt files s hash = (do
      let path ← packPath pack
      let bytes ← readPackRangeAt files pack path c.offset c.storedLen.toNat
      return (bytes, c.flags, c.lenRaw)) := by
  obtain ⟨hash, info, place, found, inPack, offset, len, flags, raw⟩ := h
  refine ⟨hash, List.mem_of_getElem? place, place, ?_⟩
  simp only [readChunkStoredAt, found, inPack, offset, len, flags, raw]

theorem Asks.mem (h : Asks s hashes pack c) : (⟨pack, c.offset, c.stop⟩ : PackSpan) ∈ asked s hashes := by
  obtain ⟨hash, info, place, found, inPack, offset, len, -⟩ := h
  refine List.mem_filterMap.mpr ⟨hash, List.mem_of_getElem? place, ?_⟩
  simp only [spanOf, found, inPack, offset, Option.bind_eq_bind, Option.bind_some, Wanted.stop, len]
  rfl

theorem Unwrapped.stop (unwrapped : Unwrapped s hashes) (h : Asks s hashes pack c) : packHeaderLen + c.stop < 2 ^ 64 :=
  unwrapped _ h.mem

/-- A request whose chunk can be read has a path and a range that can be read. -/
theorem Asks.readable (h : Asks s hashes pack c) (all : ∀ hash ∈ hashes, ∃ x, readChunkStoredAt files s hash = .ok x) :
    ∃ path b, packPath pack = .ok path ∧ readPackRangeAt files pack path c.offset c.storedLen.toNat = .ok b := by
  obtain ⟨hash, mem, -, same⟩ := h.reads files
  obtain ⟨x, read⟩ := all hash mem
  rw [same] at read
  obtain ⟨path, named, read⟩ := ok_of_bindO read
  obtain ⟨b, read, -⟩ := ok_of_bindO read
  exact ⟨path, b, named, read⟩

theorem Filled.set {i pos : Nat} (h : Filled out i) (inside : pos < out.length) :
    Filled (out.set pos (some x)) i := by
  obtain ⟨y, found⟩ := h
  by_cases same : pos = i
  · subst same
    exact ⟨x, getElem?_set_self inside⟩
  · exact ⟨y, by rw [List.getElem?_set_ne same, found]⟩

theorem Right.set {pos : Nat} (h : Right files s hashes out) (place : hashes[pos]? = some hash)
    (read : readChunkStoredAt files s hash = .ok x) : Right files s hashes (out.set pos (some x)) where
  length := by rw [List.length_set, h.length]
  reads i y found := by
    by_cases same : pos = i
    · subst same
      have inside : pos < out.length := by
        rw [h.length]
        exact (List.getElem?_eq_some_iff.mp place).1
      rw [getElem?_set_self inside] at found
      cases found
      exact ⟨hash, place, read⟩
    · rw [List.getElem?_set_ne same] at found
      exact h.reads i y found

/-- From one batch to another no place is emptied and what is filled in stays right. -/
structure Onward (files : FileView) (s : GlobalStore) (hashes : List ChunkHash) (b b' : Batch) : Prop where
  right : Right files s hashes b.out → Right files s hashes b'.out
  filled : Right files s hashes b.out → ∀ i, Filled b.out i → Filled b'.out i

theorem Onward.refl (b : Batch) : Onward files s hashes b b := ⟨id, fun _ _ => id⟩

theorem Onward.trans {b b' b'' : Batch} (h : Onward files s hashes b b') (h' : Onward files s hashes b' b'') :
    Onward files s hashes b b'' :=
  ⟨fun right => h'.right (h.right right), fun right i filled => h'.filled (h.right right) i (h.filled right i filled)⟩

/-- Filling in what a request reads. -/
theorem Asks.fill {b : Batch} {bytes : Bytes} {stats : CoalesceStats} (h : Asks s hashes pack c) (named : packPath pack = .ok path)
    (read : readPackRangeAt files pack path c.offset c.storedLen.toNat = .ok bytes) :
    Onward files s hashes b ⟨b.out.set c.pos (some (bytes, c.flags, c.lenRaw)), stats⟩ ∧
      (Right files s hashes b.out → Filled (b.out.set c.pos (some (bytes, c.flags, c.lenRaw))) c.pos) := by
  obtain ⟨hash, -, place, same⟩ := h.reads files
  have reads : readChunkStoredAt files s hash = .ok (bytes, c.flags, c.lenRaw) := by
    rw [same, named, ok_bind, read]
    rfl
  have inside : Right files s hashes b.out → c.pos < b.out.length := by
    intro right
    rw [right.length]
    exact (List.getElem?_eq_some_iff.mp place).1
  refine ⟨⟨fun right => right.set place reads, fun right i filled => filled.set (inside right)⟩, fun right => ?_⟩
  exact ⟨_, getElem?_set_self (inside right)⟩

end Asked

section Serve
variable {files : FileView} {s : GlobalStore} {hashes : List ChunkHash} {pack : String} {path : Path} {start stop : Nat}
  {range : Bytes}

/-- Every chunk that lies in a range that was read is cut out of it and filled in. -/
theorem serve_fills (near : packHeaderLen + stop < 2 ^ 64) (named : packPath pack = .ok path) (read : readPackRangeAt files pack path start (stop - start) = .ok range)
    {chunks : List Wanted} (lie : ∀ c ∈ chunks, Asks s hashes pack c ∧ start ≤ c.offset ∧ c.stop ≤ stop) (b : Batch) :
    ∃ b', serve range start chunks b = .ok b' ∧ Onward files s hashes b b' ∧
      (Right files s hashes b.out → ∀ c ∈ chunks, Filled b'.out c.pos) := by
  induction chunks generalizing b with
  | nil => exact ⟨b, rfl, .refl b, fun _ c mem => (not_mem_nil mem).elim⟩
  | cons c rest ih =>
      obtain ⟨⟨asks, after, before⟩, lie⟩ := forall_mem_cons.mp lie
      have reach : c.offset + c.storedLen.toNat ≤ stop := before
      obtain ⟨bytes, cut, alone⟩ := slice_of_range near read after reach
      obtain ⟨onward, filled⟩ := asks.fill (b := b) named alone
      obtain ⟨b', served, onward', filled'⟩ := ih lie ⟨b.out.set c.pos (some (bytes, c.flags, c.lenRaw)),
        { b.stats with packBytesServed := b.stats.packBytesServed + c.storedLen.toNat }⟩
      refine ⟨b', ?_, onward.trans onward', fun right => forall_mem_cons.mpr ⟨?_, filled' (onward.right right)⟩⟩
      · simp only [serve, wordSub_eq after,
          wordAdd_eq (show c.offset - start + c.storedLen.toNat < 2 ^ 64 by omega), cut, ok_bind, served]
      · exact onward'.filled (onward.right right) _ (filled right)

end Serve

section Ranges
variable {files : FileView} {s : GlobalStore} {hashes : List ChunkHash} {pack : String} {path : Path}
  {first : Wanted} {rest chunks : List Wanted} {grown : Nat × Nat} {b b' : Batch} {c : Wanted}

/-- The range `r` of a pack has the other in it. -/
def PackSpan.Covers (r q : PackSpan) : Prop := r.pack = q.pack ∧ r.start ≤ q.start ∧ q.stop ≤ r.stop

/-- A range that was read bridges no gap between the ranges asked for that is too wide, and is
too long only when it is one of them. -/
structure PackSpan.Close (asked : List PackSpan) (r : PackSpan) : Prop where
  gap : ∀ a b, r.start ≤ a → b ≤ r.stop → (∀ q ∈ asked, q.pack = r.pack → q.stop ≤ a ∨ b ≤ q.start) →
    b - a ≤ GlobalStore.maxCoalesceGap
  cap : r.stop - r.start ≤ GlobalStore.maxCoalescedRange ∨ r ∈ asked

/-- The offsets of the chunks go up. -/
def Ascending (chunks : List Wanted) : Prop := chunks.Pairwise fun a b => a.offset ≤ b.offset

theorem byOffset_ascending (chunks : List Wanted) : Ascending (byOffset chunks) := by
  have sorted := @List.pairwise_mergeSort _ (fun a b : Wanted => decide (a.offset ≤ b.offset))
    (fun a b c ab bc => decide_eq_true (Nat.le_trans (of_decide_eq_true ab) (of_decide_eq_true bc)))
    (fun a b => by simpa using Nat.le_total a.offset b.offset) chunks
  exact sorted.imp fun below => of_decide_eq_true below

theorem mem_byOffset : c ∈ byOffset chunks ↔ c ∈ chunks := (List.mergeSort_perm ..).mem_iff

theorem RangeGrown.close (h : RangeGrown first.offset first.stop rest grown) (asks : ∀ c ∈ first :: rest, Asks s hashes pack c) :
    PackSpan.Close (asked s hashes) ⟨pack, first.offset, grown.1⟩ := by
  obtain ⟨own, others⟩ := forall_mem_cons.mp asks
  constructor
  · intro a b after before clear
    dsimp only at after before
    have apart : ∀ c ∈ rest.take grown.2, c.stop ≤ a ∨ b ≤ c.offset :=
      fun c mem => clear _ (others c (mem_of_mem_take mem)).mem rfl
    rcases clear _ own.mem rfl with passed | ahead
    · exact h.gap a b passed before apart
    · dsimp only at ahead
      omega
  · rcases h.cap with ⟨same, -⟩ | small
    · right
      rw [same]
      exact own.mem
    · exact .inl small

/-- The chunks of a group lie in its range. -/
theorem RangeGrown.lie (h : RangeGrown first.offset first.stop rest grown) (ascending : Ascending (first :: rest)) :
    ∀ c ∈ first :: rest.take grown.2, first.offset ≤ c.offset ∧ c.stop ≤ grown.1 := by
  intro c mem
  rcases mem_cons.mp mem with rfl | mem
  · exact ⟨Nat.le_refl _, h.reach⟩
  · exact ⟨(pairwise_cons.mp ascending).1 c (mem_of_mem_take mem), h.within c mem⟩

theorem ok_of_readRange {start stop : Nat} {range : Bytes} (below : start ≤ stop)
    (h : (readRange files pack path start stop).outcome = .ok range) :
    readPackRangeAt files pack path start (stop - start) = .ok range ∧
      (readRange files pack path start stop).events = [⟨pack, start, stop⟩] := by
  rw [readRange, log_outcome, wordSub_eq below] at h
  refine ⟨h, ?_⟩
  rw [readRange, wordSub_eq below, h]
  rfl

/-- How the range of the first chunk grew. -/
theorem Unwrapped.rangeGrown (unwrapped : Unwrapped s hashes) (asks : ∀ c ∈ first :: rest, Asks s hashes pack c) :
    RangeGrown first.offset first.stop rest (growRange first.offset (wordAdd first.offset first.storedLen.toNat) rest) ∧
      packHeaderLen + (growRange first.offset (wordAdd first.offset first.storedLen.toNat) rest).1 < 2 ^ 64 := by
  have near := fun c mem => unwrapped.stop (asks c mem)
  obtain ⟨here, words⟩ := forall_mem_cons.mp near
  have end_ : wordAdd first.offset first.storedLen.toNat = first.stop := wordAdd_eq (Nat.lt_of_le_of_lt (Nat.le_add_left ..) here)
  rw [end_]
  have grown := growRange_grown (show first.offset ≤ first.stop from Nat.le_add_right _ _)
    (Nat.lt_of_le_of_lt (Nat.le_add_left ..) here) fun c mem => Nat.lt_of_le_of_lt (Nat.le_add_left ..) (words c mem)
  refine ⟨grown, ?_⟩
  rcases grown.made with same | ⟨c, mem, same⟩
  · rwa [same]
  · rw [← same]
    exact words c (mem_of_mem_take mem)

theorem mem_group (n : Nat) : c ∈ first :: rest ↔ c ∈ first :: rest.take n ∨ c ∈ rest.drop n := by
  rw [mem_cons, mem_cons, or_assoc, ← List.mem_append, List.take_append_drop]

/-- What the ranges of one pack leave when they are all read. -/
theorem readRanges_ok (unwrapped : Unwrapped s hashes) (named : packPath pack = .ok path) (asks : ∀ c ∈ chunks, Asks s hashes pack c)
    (ascending : Ascending chunks) (h : (readRanges files pack path chunks b).outcome = .ok b') :
    Onward files s hashes b b' ∧ (Right files s hashes b.out → ∀ c ∈ chunks, Filled b'.out c.pos) ∧
      ∀ c ∈ chunks, ∃ r ∈ (readRanges files pack path chunks b).events, r.Covers ⟨pack, c.offset, c.stop⟩ := by
  induction size : chunks.length using Nat.strong_induction_on generalizing chunks b with
  | _ n ih =>
      subst size
      cases chunks with
      | nil =>
          rw [readRanges] at h
          cases h
          exact ⟨.refl _, fun _ c mem => (not_mem_nil mem).elim, fun c mem => (not_mem_nil mem).elim⟩
      | cons first rest =>
          obtain ⟨grown_, near⟩ := unwrapped.rangeGrown asks
          rw [readRanges] at h ⊢
          generalize growRange first.offset (wordAdd first.offset first.storedLen.toNat) rest = grown at *
          obtain ⟨range, read, h₃, events₃⟩ := ok_of_bind h
          obtain ⟨served, cut, h₄, events₄⟩ := ok_of_bind h₃
          have below : first.offset ≤ grown.1 := (Nat.le_add_right _ _).trans grown_.reach
          obtain ⟨bytes, event⟩ := ok_of_readRange below read
          have lie := grown_.lie ascending
          have group : ∀ c ∈ first :: rest.take grown.2, c ∈ first :: rest := fun c mem => (mem_group grown.2).mpr (.inl mem)
          obtain ⟨b₁, served', onward, filled⟩ := serve_fills near named bytes
            (fun c mem => ⟨asks c (group c mem), lie c mem⟩) { b with stats := { b.stats with
              packRangesRead := b.stats.packRangesRead + 1
              packBytesRead := b.stats.packBytesRead + wordSub grown.1 first.offset } }
          rw [Traced.lift_outcome, served'] at cut
          cases cut
          have shorter : (rest.drop grown.2).length < (first :: rest).length := by
            rw [length_drop, length_cons]
            omega
          obtain ⟨onward', filled', covered⟩ := ih _ shorter
            (fun c mem => asks c ((mem_group grown.2).mpr (.inr mem)))
            ((pairwise_cons.mp ascending).2.sublist (List.drop_sublist ..)) h₄ rfl
          rw [events₃, events₄, event]
          simp only [lift_events, List.nil_append]
          refine ⟨⟨fun right => onward'.right (onward.right right), fun right i full =>
            onward'.filled (onward.right right) i (onward.filled right i full)⟩, fun right c mem => ?_, fun c mem => ?_⟩
          · rcases (mem_group grown.2).mp mem with here | later
            · exact onward'.filled (onward.right right) _ (filled right c here)
            · exact filled' (onward.right right) c later
          · rcases (mem_group grown.2).mp mem with here | later
            · exact ⟨_, mem_cons_self, rfl, lie c here⟩
            · obtain ⟨r, listed, covers⟩ := covered c later
              exact ⟨r, mem_cons_of_mem _ listed, covers⟩

/-- When each chunk can be read alone, so can the range of their group. -/
theorem RangeGrown.readable (h : RangeGrown first.offset first.stop rest grown)
    (near : ∀ c ∈ first :: rest, packHeaderLen + c.stop < 2 ^ 64)
    (alone : ∀ c ∈ first :: rest, ∃ bytes, readPackRangeAt files pack path c.offset c.storedLen.toNat = .ok bytes) :
    ∃ range, readPackRangeAt files pack path first.offset (grown.1 - first.offset) = .ok range := by
  have last : ∃ c ∈ first :: rest, c.stop = grown.1 := by
    rcases h.made with same | ⟨c, mem, same⟩
    · exact ⟨first, mem_cons_self, same.symm⟩
    · exact ⟨c, mem_cons_of_mem _ (mem_of_mem_take mem), same⟩
  obtain ⟨c, mem, same⟩ := last
  obtain ⟨bytes, read⟩ := alone c mem
  have here := near c mem
  have reach := h.reach
  rw [Wanted.stop] at same reach here
  obtain ⟨file, found, inside, -⟩ := (readPackRangeAt_ok (by omega)).mp read
  exact ⟨_, (readPackRangeAt_ok (by omega)).mpr ⟨file, found, by omega, rfl⟩⟩

theorem readRanges_returns (unwrapped : Unwrapped s hashes) (named : packPath pack = .ok path) (asks : ∀ c ∈ chunks, Asks s hashes pack c)
    (ascending : Ascending chunks)
    (alone : ∀ c ∈ chunks, ∃ bytes, readPackRangeAt files pack path c.offset c.storedLen.toNat = .ok bytes) (b : Batch) :
    ∃ b', (readRanges files pack path chunks b).outcome = .ok b' := by
  induction size : chunks.length using Nat.strong_induction_on generalizing chunks b with
  | _ n ih =>
      subst size
      cases chunks with
      | nil =>
          rw [readRanges]
          exact ⟨b, rfl⟩
      | cons first rest =>
          obtain ⟨grown_, near⟩ := unwrapped.rangeGrown asks
          obtain ⟨range, bytes⟩ := grown_.readable (fun c mem => unwrapped.stop (asks c mem)) alone
          rw [readRanges]
          generalize growRange first.offset (wordAdd first.offset first.storedLen.toNat) rest = grown at *
          have read : (readRange files pack path first.offset grown.1).outcome = .ok range := by
            have below : first.offset ≤ grown.1 := (Nat.le_add_right _ _).trans grown_.reach
            rw [readRange, log_outcome, wordSub_eq below, bytes]
          have lie := grown_.lie ascending
          have group : ∀ c ∈ first :: rest.take grown.2, c ∈ first :: rest := fun c mem => (mem_group grown.2).mpr (.inl mem)
          obtain ⟨b₁, served, -, -⟩ := serve_fills near named bytes
            (fun c mem => ⟨asks c (group c mem), lie c mem⟩) { b with stats := { b.stats with
              packRangesRead := b.stats.packRangesRead + 1
              packBytesRead := b.stats.packBytesRead + wordSub grown.1 first.offset } }
          have shorter : (rest.drop grown.2).length < (first :: rest).length := by
            rw [length_drop, length_cons]
            omega
          obtain ⟨b', later⟩ := ih _ shorter (fun c mem => asks c ((mem_group grown.2).mpr (.inr mem)))
            ((pairwise_cons.mp ascending).2.sublist (List.drop_sublist ..))
            (fun c mem => alone c ((mem_group grown.2).mpr (.inr mem))) b₁ rfl
          refine ⟨b', ?_⟩
          rw [(bind_ok read).1, (bind_ok served).1, later]

/-- Every range that is read, also by a call that fails later, is close. -/
theorem readRanges_close (unwrapped : Unwrapped s hashes) (asks : ∀ c ∈ chunks, Asks s hashes pack c) (b : Batch) :
    (readRanges files pack path chunks b).Every (PackSpan.Close (asked s hashes)) := by
  induction size : chunks.length using Nat.strong_induction_on generalizing chunks b with
  | _ n ih =>
      subst size
      cases chunks with
      | nil =>
          rw [readRanges]
          exact .pure
      | cons first rest =>
          have shorter : ∀ k, (rest.drop k).length < (first :: rest).length := by
            intro k
            rw [length_drop, length_cons]
            omega
          rw [readRanges]
          refine .bind ?_ fun range _ => ?_
          · exact .log fun _ _ => (unwrapped.rangeGrown asks).1.close asks
          refine .bind Traced.Every.lift fun served _ => ?_
          exact ih _ (shorter _) (fun c mem => asks c ((mem_group _).mpr (.inr mem))) served rfl

end Ranges

section Packs
variable {files : FileView} {s : GlobalStore} {hashes : List ChunkHash} {packs : ByPack} {b b' : Batch}

/-- The request is put down with this pack. -/
def Noted (packs : ByPack) (pack : String) (c : Wanted) : Prop := ∃ chunks, (pack, chunks) ∈ packs ∧ c ∈ chunks

theorem noted_pushWanted {pack pack' : String} {c d : Wanted} :
    Noted (pushWanted pack c packs) pack' d ↔ Noted packs pack' d ∨ pack' = pack ∧ d = c := by
  induction packs with
  | nil => simp [pushWanted, Noted]
  | cons e rest ih =>
      obtain ⟨other, chunks⟩ := e
      simp only [Noted] at ih
      rw [pushWanted]
      by_cases same : other = pack
      · subst same
        simp only [if_pos, Noted, mem_cons, Prod.mk.injEq, or_and_right, exists_or]
        constructor
        · rintro (⟨l, ⟨rfl, rfl⟩, mem⟩ | later)
          · rcases List.mem_append.mp mem with old | new
            · exact .inl (.inl ⟨chunks, ⟨rfl, rfl⟩, old⟩)
            · exact .inr ⟨rfl, List.mem_singleton.mp new⟩
          · exact .inl (.inr later)
        · rintro ((⟨l, ⟨rfl, rfl⟩, old⟩ | later) | ⟨rfl, rfl⟩)
          · exact .inl ⟨_, ⟨rfl, rfl⟩, List.mem_append_left _ old⟩
          · exact .inr later
          · exact .inl ⟨_, ⟨rfl, rfl⟩, List.mem_append_right _ mem_cons_self⟩
      · simp only [if_neg same, Noted, mem_cons, or_and_right, exists_or, ih, or_assoc]

theorem readPacks_ok (unwrapped : Unwrapped s hashes) (asks : ∀ pack c, Noted packs pack c → Asks s hashes pack c)
    (h : (readPacks files packs b).outcome = .ok b') :
    Onward files s hashes b b' ∧ (Right files s hashes b.out → ∀ pack c, Noted packs pack c → Filled b'.out c.pos) ∧
      ∀ pack c, Noted packs pack c → ∃ r ∈ (readPacks files packs b).events, r.Covers ⟨pack, c.offset, c.stop⟩ := by
  induction packs generalizing b with
  | nil =>
      cases h
      exact ⟨.refl _, fun _ pack c ⟨l, mem, _⟩ => (not_mem_nil mem).elim, fun pack c ⟨l, mem, _⟩ => (not_mem_nil mem).elim⟩
  | cons e rest ih =>
      obtain ⟨pack, chunks⟩ := e
      rw [readPacks] at h ⊢
      obtain ⟨path, named, h₁, events₁⟩ := ok_of_bind h
      obtain ⟨b₁, read, h₂, events₂⟩ := ok_of_bind h₁
      have here : ∀ c ∈ byOffset chunks, Asks s hashes pack c :=
        fun c mem => asks pack c ⟨chunks, mem_cons_self, mem_byOffset.mp mem⟩
      obtain ⟨onward, filled, covered⟩ := readRanges_ok unwrapped named here (byOffset_ascending chunks) read
      obtain ⟨onward', filled', covered'⟩ :=
        ih (fun p c ⟨l, mem, inside⟩ => asks p c ⟨l, mem_cons_of_mem _ mem, inside⟩) h₂
      rw [events₁, events₂, lift_events, List.nil_append]
      refine ⟨⟨fun right => onward'.right (onward.right right), fun right i full =>
        onward'.filled (onward.right right) i (onward.filled right i full)⟩, fun right p c noted => ?_, fun p c noted => ?_⟩
      · obtain ⟨l, mem, inside⟩ := noted
        rcases mem_cons.mp mem with same | later
        · cases same
          exact onward'.filled (onward.right right) _ (filled right c (mem_byOffset.mpr inside))
        · exact filled' (onward.right right) p c ⟨l, later, inside⟩
      · obtain ⟨l, mem, inside⟩ := noted
        rcases mem_cons.mp mem with same | later
        · cases same
          obtain ⟨r, listed, covers⟩ := covered c (mem_byOffset.mpr inside)
          exact ⟨r, List.mem_append_left _ listed, covers⟩
        · obtain ⟨r, listed, covers⟩ := covered' p c ⟨l, later, inside⟩
          exact ⟨r, List.mem_append_right _ listed, covers⟩

theorem readPacks_returns (unwrapped : Unwrapped s hashes) (asks : ∀ pack c, Noted packs pack c → Asks s hashes pack c)
    (inhabited : ∀ e ∈ packs, e.2 ≠ []) (all : ∀ hash ∈ hashes, ∃ x, readChunkStoredAt files s hash = .ok x) (b : Batch) :
    ∃ b', (readPacks files packs b).outcome = .ok b' := by
  induction packs generalizing b with
  | nil => exact ⟨b, rfl⟩
  | cons e rest ih =>
      obtain ⟨pack, chunks⟩ := e
      obtain ⟨some_, inhabited⟩ := forall_mem_cons.mp inhabited
      have here : ∀ c ∈ byOffset chunks, Asks s hashes pack c :=
        fun c mem => asks pack c ⟨chunks, mem_cons_self, mem_byOffset.mp mem⟩
      obtain ⟨c, mem⟩ := List.exists_mem_of_ne_nil chunks some_
      obtain ⟨path, -, named, -⟩ := (here c (mem_byOffset.mpr mem)).readable all
      have alone : ∀ c ∈ byOffset chunks, ∃ bytes, readPackRangeAt files pack path c.offset c.storedLen.toNat = .ok bytes := by
        intro c mem
        obtain ⟨path', bytes, named', read⟩ := (here c mem).readable all
        cases named.symm.trans named'
        exact ⟨bytes, read⟩
      obtain ⟨b₁, read⟩ := readRanges_returns unwrapped named here (byOffset_ascending chunks) alone { b with stats := { b.stats with
        packChunksRequested := b.stats.packChunksRequested + chunks.length } }
      obtain ⟨b', later⟩ := ih (fun p c ⟨l, mem, inside⟩ => asks p c ⟨l, mem_cons_of_mem _ mem, inside⟩) inhabited b₁
      exact ⟨b', by rw [readPacks, (bind_ok named).1, (bind_ok read).1, later]⟩

theorem readPacks_close (unwrapped : Unwrapped s hashes) (asks : ∀ pack c, Noted packs pack c → Asks s hashes pack c) (b : Batch) :
    (readPacks files packs b).Every (PackSpan.Close (asked s hashes)) := by
  induction packs generalizing b with
  | nil => exact .pure
  | cons e rest ih =>
      obtain ⟨pack, chunks⟩ := e
      rw [readPacks]
      refine .bind Traced.Every.lift fun path _ => ?_
      refine .bind ?_ fun b₁ _ => ?_
      · exact readRanges_close unwrapped (fun c mem => asks pack c ⟨chunks, mem_cons_self, mem_byOffset.mp mem⟩) _
      exact ih (fun p c ⟨l, mem, inside⟩ => asks p c ⟨l, mem_cons_of_mem _ mem, inside⟩) b₁

end Packs

section Gather
variable {files : FileView} {s : GlobalStore} {hashes : List ChunkHash} {pos : Nat} {out : List (Option ChunkForm)}
  {packs : ByPack} {r : List (Option ChunkForm) × ByPack} {rest : List ChunkHash}
  {out : List (Option ChunkForm)}

/-- A chunk that is in no pack is read from a file of its own. -/
theorem spanOf_none {hash : ChunkHash} {info : ChunkInfo} (found : s.chunkGet (toHex hash) = some info)
    (loose : ∀ pack offset, info.pack = some pack → info.packOffset = some offset → False) : spanOf s hash = none := by
  cases inPack : info.pack with
  | none => simp [spanOf, found, inPack]
  | some pack =>
      cases at_ : info.packOffset with
      | none => simp [spanOf, found, inPack, at_]
      | some offset => exact (loose pack offset inPack at_).elim

/-- What the first pass makes of the chunks from `pos` on. -/
structure Gathered (files : FileView) (s : GlobalStore) (hashes : List ChunkHash) (pos : Nat)
    (out : List (Option ChunkForm)) (packs : ByPack) (r : List (Option ChunkForm) × ByPack) : Prop where
  right : Right files s hashes out → Right files s hashes r.1
  filled : Right files s hashes out → ∀ i, Filled out i → Filled r.1 i
  noted : ∀ pack c, Noted packs pack c → Noted r.2 pack c
  asks : (∀ pack c, Noted packs pack c → Asks s hashes pack c) → ∀ pack c, Noted r.2 pack c → Asks s hashes pack c
  inhabited : (∀ e ∈ packs, e.2 ≠ []) → ∀ e ∈ r.2, e.2 ≠ []
  loose : Right files s hashes out → ∀ i hash, pos ≤ i → hashes[i]? = some hash → spanOf s hash = none → Filled r.1 i
  packed : ∀ i hash q, pos ≤ i → hashes[i]? = some hash → spanOf s hash = some q →
    ∃ c, Noted r.2 q.pack c ∧ c.pos = i ∧ c.offset = q.start ∧ c.stop = q.stop

theorem pushWanted_inhabited {pack : String} {c : Wanted} (h : ∀ e ∈ packs, e.2 ≠ []) :
    ∀ e ∈ pushWanted pack c packs, e.2 ≠ [] := by
  induction packs with
  | nil => simp [pushWanted]
  | cons e rest ih =>
      obtain ⟨own, others⟩ := forall_mem_cons.mp h
      rw [pushWanted]
      split
      · exact forall_mem_cons.mpr ⟨by simp, others⟩
      · exact forall_mem_cons.mpr ⟨own, ih others⟩

theorem sortChunks_ok (ahead : hashes.drop pos = rest) (h : sortChunks files s pos rest out packs = .ok r) :
    Gathered files s hashes pos out packs r := by
  induction rest generalizing pos out packs with
  | nil =>
      cases h
      have past : ∀ (i : Nat) (hash : ChunkHash), pos ≤ i → hashes[i]? = some hash → False := by
        intro i hash below found
        have inside := (List.getElem?_eq_some_iff.mp found).1
        have := List.drop_eq_nil_iff.mp ahead
        omega
      exact ⟨id, fun _ _ => id, fun _ _ => id, id, id, fun _ i hash below found _ => (past i hash below found).elim,
        fun i hash q below found _ => (past i hash below found).elim⟩
  | cons hash rest ih =>
      have here : hashes[pos]? = some hash := by
        rw [← Nat.add_zero pos, ← List.getElem?_drop, ahead]
        rfl
      have ahead' : hashes.drop (pos + 1) = rest := by
        rw [← List.drop_drop, ahead]
        rfl
      rw [sortChunks] at h
      split at h
      · cases h
      rename_i info found
      split at h
      · rename_i pack offset inPack at_
        have span : spanOf s hash = some ⟨pack, offset, offset + info.lenStored.toNat⟩ := by
          simp only [spanOf, found, inPack, at_, Option.bind_eq_bind, Option.bind_some]
          rfl
        have tail := ih ahead' h
        have own : Noted (pushWanted pack ⟨pos, offset, info.lenStored, info.flags, info.lenRaw⟩ packs) pack
            ⟨pos, offset, info.lenStored, info.flags, info.lenRaw⟩ := noted_pushWanted.mpr (.inr ⟨rfl, rfl⟩)
        refine ⟨tail.right, tail.filled, fun p c noted => tail.noted p c (noted_pushWanted.mpr (.inl noted)), fun asks => ?_,
          fun inhabited => tail.inhabited (pushWanted_inhabited inhabited), fun right i hash' below place none_ => ?_,
          fun i hash' q below place some_ => ?_⟩
        · apply tail.asks
          intro p c noted
          rcases noted_pushWanted.mp noted with old | ⟨rfl, rfl⟩
          · exact asks p c old
          · exact ⟨hash, info, here, found, inPack, at_, rfl, rfl, rfl⟩
        · rcases Nat.eq_or_lt_of_le below with rfl | later
          · cases here.symm.trans place
            rw [span] at none_
            cases none_
          · exact tail.loose right i hash' later place none_
        · rcases Nat.eq_or_lt_of_le below with rfl | later
          · cases here.symm.trans place
            cases span.symm.trans some_
            exact ⟨_, tail.noted _ _ own, rfl, rfl, rfl⟩
          · exact tail.packed i hash' q later place some_
      · rename_i loose
        obtain ⟨bytes, read, h⟩ := ok_of_bindO h
        have single : readChunkStoredAt files s hash = .ok (bytes, info.flags, info.lenRaw) := by
          rw [readChunkStoredAt, found]
          dsimp only
          split
          · rename_i inPack at_
            exact (loose _ _ inPack at_).elim
          · rw [read]
            rfl
        have span := spanOf_none found loose
        have tail := ih ahead' h
        have inside : Right files s hashes out → pos < out.length := by
          intro right
          rw [right.length]
          exact (List.getElem?_eq_some_iff.mp here).1
        refine ⟨fun right => tail.right (right.set here single), fun right i full =>
          tail.filled (right.set here single) i (full.set (inside right)), tail.noted, tail.asks, tail.inhabited,
          fun right i hash' below place none_ => ?_, fun i hash' q below place some_ => ?_⟩
        · rcases Nat.eq_or_lt_of_le below with rfl | later
          · exact tail.filled (right.set here single) _ ⟨_, getElem?_set_self (inside right)⟩
          · exact tail.loose (right.set here single) i hash' later place none_
        · rcases Nat.eq_or_lt_of_le below with rfl | later
          · cases here.symm.trans place
            rw [span] at some_
            cases some_
          · exact tail.packed i hash' q later place some_

theorem sortChunks_returns (all : ∀ hash ∈ rest, ∃ x, readChunkStoredAt files s hash = .ok x) (pos : Nat)
    (out : List (Option ChunkForm)) (packs : ByPack) : ∃ r, sortChunks files s pos rest out packs = .ok r := by
  induction rest generalizing pos out packs with
  | nil => exact ⟨_, rfl⟩
  | cons hash rest ih =>
      obtain ⟨⟨x, single⟩, all⟩ := forall_mem_cons.mp all
      rw [sortChunks]
      rw [readChunkStoredAt] at single
      split
      · rename_i missing
        rw [missing] at single
        cases single
      rename_i info found
      rw [found] at single
      dsimp only at single
      split
      · exact ih all _ _ _
      · rename_i loose
        split at single
        · rename_i inPack at_
          exact (loose _ _ inPack at_).elim
        · obtain ⟨bytes, read, -⟩ := ok_of_bindO single
          rw [read, ok_bind]
          exact ih all _ _ _

theorem unwrapAll_returns (full : ∀ i, i < out.length → Filled out i) :
    ∃ l, unwrapAll out = .ok l := by
  induction out with
  | nil => exact ⟨[], rfl⟩
  | cons x rest ih =>
      obtain ⟨y, first⟩ := full 0 (Nat.zero_lt_succ _)
      obtain ⟨l, later⟩ := ih fun i inside => by
        obtain ⟨z, found⟩ := full (i + 1) (Nat.succ_lt_succ inside)
        exact ⟨z, found⟩
      cases first
      rw [unwrapAll, later]
      exact ⟨_, rfl⟩

theorem ok_of_unwrapAll {l : List ChunkForm} (h : unwrapAll out = .ok l) : out = l.map some := by
  induction out generalizing l with
  | nil =>
      cases h
      rfl
  | cons x rest ih =>
      cases x with
      | none => cases h
      | some y =>
          rw [unwrapAll] at h
          obtain ⟨l', later, h⟩ := ok_of_bindO h
          cases h
          rw [ih later]
          rfl

end Gather

section Agrees
variable {files : FileView} {order : HashOrder} {s : GlobalStore} {hashes : List ChunkHash} {pack : String}
  {c : Wanted}

theorem noted_walk {packs : ByPack} : Noted (order.walk packs) pack c ↔ Noted packs pack c := by
  constructor
  · rintro ⟨l, mem, inside⟩
    exact ⟨l, (order.perm packs).mem_iff.mp mem, inside⟩
  · rintro ⟨l, mem, inside⟩
    exact ⟨l, (order.perm packs).mem_iff.mpr mem, inside⟩

theorem not_noted_nil : ¬ Noted [] pack c := fun ⟨_, mem, _⟩ => not_mem_nil mem

/-- Nothing is filled in at first, so nothing wrong is. -/
theorem right_start : Right files s hashes (replicate hashes.length none) where
  length := List.length_replicate
  reads i x found := by
    rw [List.getElem?_replicate] at found
    split at found <;> cases found

theorem batch_ok (unwrapped : Unwrapped s hashes) {out : List ChunkForm} {stats : CoalesceStats}
    (h : (readChunksStoredBatch files s order hashes).outcome = .ok (out, stats)) :
    List.Forall₂ (fun hash x => readChunkStoredAt files s hash = .ok x) hashes out ∧
      ∀ q ∈ asked s hashes, ∃ r ∈ (readChunksStoredBatch files s order hashes).events, r.Covers q := by
  obtain ⟨gathered, sorted, h₁, events₁⟩ := ok_of_bind h
  obtain ⟨b, read, h₂, events₂⟩ := ok_of_bind h₁
  obtain ⟨l, whole, h₃, events₃⟩ := ok_of_bind h₂
  cases h₃
  have first := sortChunks_ok (drop_zero : hashes.drop 0 = hashes) sorted
  have asks := first.asks fun _ _ noted => (not_noted_nil noted).elim
  obtain ⟨onward, -, covered⟩ := readPacks_ok unwrapped (fun pack c noted => asks pack c (noted_walk.mp noted)) read
  have right := onward.right (first.right right_start)
  have values := ok_of_unwrapAll whole
  have length : hashes.length = out.length := by
    rw [← right.length, values, List.length_map]
  constructor
  · apply List.forall₂_iff_get.mpr
    refine ⟨length, fun i inside inside' => ?_⟩
    have filled : b.out[i]? = some (some out[i]) := by
      rw [values, List.getElem?_map, List.getElem?_eq_getElem inside']
      rfl
    obtain ⟨hash, place, reads⟩ := right.reads i _ filled
    rw [List.getElem?_eq_getElem inside] at place
    cases place
    exact reads
  · intro q mem
    obtain ⟨hash, listed, span⟩ := List.mem_filterMap.mp mem
    obtain ⟨i, inside, same⟩ := List.getElem_of_mem listed
    obtain ⟨c, noted, -, offset, stop⟩ := first.packed i hash q (Nat.zero_le i)
      (by rw [List.getElem?_eq_getElem inside, same]) span
    obtain ⟨r, event, covers⟩ := covered q.pack c (noted_walk.mpr noted)
    rw [offset, stop] at covers
    refine ⟨r, ?_, covers⟩
    rw [readChunksStoredBatch, events₁, events₂]
    exact List.mem_append_right _ (List.mem_append_left _ event)

theorem batch_returns (unwrapped : Unwrapped s hashes) (all : ∀ hash ∈ hashes, ∃ x, readChunkStoredAt files s hash = .ok x) :
    ∃ r, (readChunksStoredBatch files s order hashes).outcome = .ok r := by
  obtain ⟨gathered, sorted⟩ := sortChunks_returns all 0 (replicate hashes.length none) []
  have first := sortChunks_ok drop_zero sorted
  have asks := first.asks fun _ _ noted => (not_noted_nil noted).elim
  have inhabited := first.inhabited fun _ mem => (not_mem_nil mem).elim
  obtain ⟨b, read⟩ := @readPacks_returns _ _ _ (order.walk gathered.2) unwrapped
    (fun pack c noted => asks pack c (noted_walk.mp noted))
    (fun e mem => inhabited e ((order.perm _).mem_iff.mp mem)) all ⟨gathered.1, ⟨0, 0, 0, 0⟩⟩
  obtain ⟨onward, filled, -⟩ := readPacks_ok unwrapped (fun pack c noted => asks pack c (noted_walk.mp noted)) read
  have start := first.right right_start
  have full : ∀ i, i < b.out.length → Filled b.out i := by
    intro i inside
    rw [(onward.right start).length] at inside
    have place : hashes[i]? = some hashes[i] := List.getElem?_eq_getElem inside
    cases span : spanOf s hashes[i] with
    | none => exact onward.filled start i (first.loose right_start i _ (Nat.zero_le i) place span)
    | some q =>
        obtain ⟨c, noted, rfl, -, -⟩ := first.packed i _ q (Nat.zero_le i) place span
        exact filled start q.pack c (noted_walk.mpr noted)
  obtain ⟨l, whole⟩ := unwrapAll_returns full
  refine ⟨(l, b.stats), ?_⟩
  rw [readChunksStoredBatch, (bind_ok sorted).1, (bind_ok read).1, (bind_ok whole).1]
  rfl

theorem batch_close (unwrapped : Unwrapped s hashes) : (readChunksStoredBatch files s order hashes).Every (PackSpan.Close (asked s hashes)) := by
  refine .bind Traced.Every.lift fun gathered sorted => ?_
  have first := sortChunks_ok (drop_zero : hashes.drop 0 = hashes) sorted
  have asks := first.asks fun _ _ noted => (not_noted_nil noted).elim
  refine .bind ?_ fun b _ => ?_
  · exact readPacks_close unwrapped (fun pack c noted => asks pack c (noted_walk.mp noted)) _
  · exact .bind Traced.Every.lift fun l _ => .pure

/-- What a batch owes to single reads: it succeeds exactly when each of its chunks can be read alone;
it gives for each place what that read gives; the ranges it reads have every range asked for in
them, bridge no gap that is too wide, and are too long only for a single chunk. -/
def BatchAgrees (files : FileView) (order : HashOrder) (s : GlobalStore) (hashes : List ChunkHash) : Prop :=
  ((∃ r, (readChunksStoredBatch files s order hashes).outcome = .ok r) ↔
      ∀ hash ∈ hashes, ∃ x, readChunkStoredAt files s hash = .ok x) ∧
    (∀ out stats, (readChunksStoredBatch files s order hashes).outcome = .ok (out, stats) →
      List.Forall₂ (fun hash x => readChunkStoredAt files s hash = .ok x) hashes out ∧
      ∀ q ∈ asked s hashes, ∃ r ∈ (readChunksStoredBatch files s order hashes).events, r.Covers q) ∧
    ∀ r ∈ (readChunksStoredBatch files s order hashes).events, r.Close (asked s hashes)

/-- A pack with these bytes of data. -/
def onePack (data : Bytes) (short : data.length < 2 ^ 63) : FileView where
  read p := if p = .pack "ab" then .ok (replicate 16 0 ++ (data ++ replicate 40 0)) else .error .notFound
  short p b found := by
    split at found
    · cases found
      simp only [List.length_append, List.length_replicate]
      omega
    · cases found

/-- Two chunks of that pack. -/
def twoChunks (first second : ChunkInfo) : GlobalStore where
  index := { Index.empty .packfiles with
    chunks := ((∅ : ChunkTable).insert (toHex zeroHash) first).insert (toHex maxHash) second }
  seg := none
  openPack := none
  preferredPackSize := 1
  batch := none
  dirtyChunks := ∅
  dirtyAssets := ∅
  journalBytes := 0
  snapshotBytes := 0
  journalBudget := none
  pendingRecords := ∅
  snapshotId := none
  readOnly := true
  nextWriter := 0

/-- Two chunks that overlap. -/
def overlapping : GlobalStore := twoChunks ⟨3, 3, 0, 1, none, some "ab", some 0⟩ ⟨2, 2, 0, 1, none, some "ab", some 1⟩

/-- The second chunk begins where the first ends and ends behind the largest word. -/
def wrapping : GlobalStore :=
  twoChunks ⟨8, 8, 0, 1, none, some "ab", some (2 ^ 64 - 16)⟩ ⟨16, 16, 0, 1, none, some "ab", some (2 ^ 64 - 8)⟩

/-- The requests for its two chunks. -/
def wrappingWanted : List Wanted := [⟨0, 2 ^ 64 - 16, 8, 0, 8⟩, ⟨1, 2 ^ 64 - 8, 16, 0, 16⟩]

theorem readRanges_wrapping {path : Path} (found : packPath "ab" = .ok path) (b b' : Batch) :
    (readRanges (onePack (replicate 32 0) (by decide)) "ab" path wrappingWanted b).outcome ≠ .ok b' := by
  intro h
  rw [wrappingWanted, readRanges] at h
  have grown : growRange (2 ^ 64 - 16) (wordAdd (2 ^ 64 - 16) (8 : UInt32).toNat) [⟨1, 2 ^ 64 - 8, 16, 0, 16⟩] =
      (2 ^ 64 - 8, 1) := by decide +kernel
  simp only [grown] at h
  obtain ⟨range, read, h, -⟩ := ok_of_bind h
  obtain ⟨b₁, served, -, -⟩ := ok_of_bind h
  have bytes : readPackRangeAt (onePack (replicate 32 0) (by decide)) "ab" (.pack "ab") (2 ^ 64 - 16) 8 =
      .ok (replicate 8 0) := by decide +kernel
  cases (Outcome.ok.inj found : Path.pack "ab" = path)
  cases (Outcome.ok.inj (bytes.symm.trans read) : replicate 8 0 = range)
  cases served

end Agrees
end Cavs
