import Cavs.BatchWire
import Cavs.ScanPrefix

/-!
# Two decoders of a batch

A response is decoded whole from a buffer, or item by item from a reader, each item to a
consumer. Each decoder accepts what some response with room on the wire is encoded to and
nothing else, so they accept the same bytes, and the items of a stream are the items of the
response.
-/
namespace Cavs
open FileProg (Bytes)
open ByteScan
open List (append_assoc append_nil cons_append foldl_cons headD_cons map_id mem_flatMap nil_append)

section Buffered
variable {S : Type}

def decodeInstr : Scan ProtoError S DeliveryInstr := do
  let tag ← Scan.take .malformed 1
  let hash ← Scan.take .malformed 32
  let hash ← Scan.ofOption .malformed (hashOf hash)
  match tag.headD 0 with
  | 0 => return .ref hash
  | 1 => do
      let compression ← Scan.take .malformed 1
      if compression.headD 0 > compressionZstd then Scan.throw .malformed else
      let lenRaw ← Scan.num .malformed 4
      let lenStored ← Scan.num .malformed 4
      if lenRaw > maxWireChunk ∨ lenStored > maxWireChunk then Scan.throw .malformed else
      let payload ← Scan.take .malformed lenStored
      return .inline hash (UInt32.ofNat lenRaw) (compression.headD 0) payload
  | _ => Scan.throw .malformed

def decodeInstrs : Scan ProtoError S (List DeliveryInstr) := do
  let n ← Scan.num .malformed 4
  Scan.collect n decodeInstr

def decodeInit : Scan ProtoError S InitDelivery := do
  let trackId ← Scan.num .malformed 4
  return ⟨UInt32.ofNat trackId, ← decodeInstrs⟩

def decodeSegmentDelivery : Scan ProtoError S SegmentDelivery := do
  let segmentId ← Scan.num .malformed 8
  return ⟨UInt64.ofNat segmentId, ← decodeInstrs⟩

def readBatch : Scan ProtoError S BatchResponse := do
  let magic ← Scan.take .malformed 4
  if magic ≠ batchMagic then Scan.throw .badHeader else
  let version ← Scan.take .malformed 1
  if version ≠ [batchVersion] then Scan.throw .badHeader else
  let initCount ← Scan.num .malformed 4
  let inits ← Scan.collect initCount decodeInit
  let segCount ← Scan.num .malformed 4
  let segments ← Scan.collect segCount decodeSegmentDelivery
  let left ← Scan.remaining
  if left ≠ 0 then Scan.throw .malformed else
  return ⟨inits, segments⟩

def BatchResponse.decode (buf : Bytes) : Except ProtoError BatchResponse :=
  ((readBatch () ⟨0, buf⟩).1).map Prod.fst

end Buffered

section Items

def InitDelivery.items (init : InitDelivery) : List BatchItem :=
  .init init.trackId (UInt32.ofNat init.instrs.length) :: init.instrs.map .instr

def SegmentDelivery.items (seg : SegmentDelivery) : List BatchItem :=
  .segment seg.segmentId (UInt32.ofNat seg.instrs.length) :: seg.instrs.map .instr

/-- The items of a response in the order of the wire. -/
def BatchResponse.items (resp : BatchResponse) : List BatchItem :=
  resp.inits.flatMap InitDelivery.items ++ resp.segments.flatMap SegmentDelivery.items

/-- The instructions in front of the first start, and the deliveries from there on. -/
def regroupFrom : List BatchItem → List DeliveryInstr × BatchResponse
  | [] => ([], ⟨[], []⟩)
  | .instr instr :: rest => (instr :: (regroupFrom rest).1, (regroupFrom rest).2)
  | .init id _ :: rest =>
      ([], { (regroupFrom rest).2 with inits := ⟨id, (regroupFrom rest).1⟩ :: (regroupFrom rest).2.inits })
  | .segment id _ :: rest =>
      ([], { (regroupFrom rest).2 with segments := ⟨id, (regroupFrom rest).1⟩ :: (regroupFrom rest).2.segments })

/-- Each start with the instructions up to the next. -/
def regroup (items : List BatchItem) : BatchResponse := (regroupFrom items).2

theorem regroupFrom_instrs (instrs : List DeliveryInstr) (rest : List BatchItem) :
    regroupFrom (instrs.map .instr ++ rest) = (instrs ++ (regroupFrom rest).1, (regroupFrom rest).2) := by
  induction instrs with
  | nil => rfl
  | cons instr instrs ih => rw [List.map_cons, cons_append, regroupFrom, ih, cons_append]

theorem regroupFrom_segments (segments : List SegmentDelivery) :
    regroupFrom (segments.flatMap SegmentDelivery.items) = ([], ⟨[], segments⟩) := by
  induction segments with
  | nil => rfl
  | cons seg segments ih =>
      rw [List.flatMap_cons, SegmentDelivery.items, cons_append, regroupFrom, regroupFrom_instrs, ih, append_nil]

/-- The instructions among the items are those of the response. -/
theorem BatchResponse.items_instrs (resp : BatchResponse) : resp.items.filterMap BatchItem.asInstr = resp.instrs := by
  have inside : ∀ instrs : List DeliveryInstr, (instrs.map BatchItem.instr).filterMap BatchItem.asInstr = instrs := by
    intro instrs
    rw [List.filterMap_map]
    exact List.filterMap_some
  rw [BatchResponse.items, BatchResponse.instrs, List.filterMap_append, List.filterMap_flatMap, List.filterMap_flatMap]
  congr 2
  · funext init
    exact inside init.instrs
  · funext seg
    exact inside seg.instrs

theorem regroup_items (resp : BatchResponse) : regroup resp.items = resp := by
  have whole : regroupFrom resp.items = ([], resp) := by
    obtain ⟨inits, segments⟩ := resp
    unfold BatchResponse.items
    induction inits with
    | nil => exact regroupFrom_segments segments
    | cons init inits ih =>
        rw [List.flatMap_cons, InitDelivery.items, cons_append, cons_append, regroupFrom, append_assoc,
          regroupFrom_instrs, ih, append_nil]
  rw [regroup, whole]

end Items

section Room
variable {S : Type} {s t : S} {c d : Cursor} {instr : DeliveryInstr}

/-- A response whose counts have room on the wire and whose instructions a decoder takes. -/
structure BatchResponse.Within (resp : BatchResponse) : Prop extends resp.CountsFit where
  instrs : ∀ instr ∈ resp.instrs, instr.Fits

theorem hash_of_hashOf {b : Bytes} {hash : ChunkHash} (h : hashOf b = some hash) : b = hash.1 := by
  unfold hashOf at h
  split at h
  · cases h
    rfl
  · cases h

theorem ok_of_decodeInstr (h : decodeInstr s c = (.ok (instr, d), t)) :
    instr.Fits ∧ c.rest = encodeInstr instr ++ d.rest := by
  obtain ⟨tag, c₁, s₁, taken, h₁⟩ := ok_of_bind h
  obtain ⟨splitTag, one, -, -⟩ := ok_of_take taken
  obtain ⟨bytes, c₂, s₂, taken, h₂⟩ := ok_of_bind h₁
  obtain ⟨splitHash, -⟩ := ok_of_take taken
  obtain ⟨hash, c₃, s₃, named, h₃⟩ := ok_of_bind h₂
  obtain ⟨known, rfl, -⟩ := ok_of_option named
  obtain ⟨tag, rfl⟩ := List.length_eq_one_iff.mp one
  have front : c.rest = (tag :: hash.1) ++ c₃.rest := by
    rw [splitTag, splitHash, hash_of_hashOf known]
    rfl
  dsimp only [headD_cons] at h₃
  split at h₃
  · cases h₃
    exact ⟨trivial, front⟩
  · obtain ⟨compression, c₄, s₄, packed, h₄⟩ := ok_of_bind h₃
    obtain ⟨split₄, one, -, -⟩ := ok_of_take packed
    obtain ⟨compression, rfl⟩ := List.length_eq_one_iff.mp one
    obtain ⟨low, h₅⟩ := ok_of_guard h₄
    obtain ⟨lenRaw, c₅, s₅, read, h₆⟩ := ok_of_bind h₅
    obtain ⟨split₅, word, -⟩ := ok_of_num read
    obtain ⟨lenStored, c₆, s₆, read, h₇⟩ := ok_of_bind h₆
    obtain ⟨split₆, -, -⟩ := ok_of_num read
    obtain ⟨short, h₈⟩ := ok_of_guard h₇
    obtain ⟨payload, c₇, s₇, last, h₉⟩ := ok_of_bind h₈
    obtain ⟨split₇, rfl, -, -⟩ := ok_of_take last
    cases h₉
    have raw : (UInt32.ofNat lenRaw).toNat = lenRaw := Nat.mod_eq_of_lt word
    obtain ⟨shortRaw, short⟩ := not_or.mp short
    refine ⟨⟨UInt8.not_lt.mp low, by rw [raw]; exact Nat.not_lt.mp shortRaw, Nat.not_lt.mp short⟩, ?_⟩
    rw [front, split₄, split₅, split₆, split₇, encodeInstr, encodeSizes, raw]
    simp only [append_assoc, cons_append, nil_append, headD_cons]
  · cases h₃

theorem ok_of_readInstr (h : readInstr s c = (.ok (instr, d), t)) :
    instr.Fits ∧ c.rest = encodeInstr instr ++ d.rest ∧ t = s := by
  obtain ⟨tagHash, c₁, s₁, taken, h₁⟩ := ok_of_bind h
  obtain ⟨split, long, -, rfl⟩ := ok_of_take taken
  obtain ⟨hash, c₂, s₂, named, h₂⟩ := ok_of_bind h₁
  obtain ⟨known, rfl, rfl⟩ := ok_of_option named
  obtain ⟨tag, bytes, rfl⟩ := List.exists_cons_of_length_eq_add_one long
  obtain rfl : bytes = hash.1 := hash_of_hashOf known
  dsimp only [headD_cons] at h₂
  split at h₂
  · cases h₂
    exact ⟨trivial, split, rfl⟩
  · obtain ⟨sizes, c₃, s₃, sized, h₃⟩ := ok_of_bind h₂
    obtain ⟨split₃, nine, -, rfl⟩ := ok_of_take sized
    obtain ⟨low, h₄⟩ := ok_of_guard h₃
    obtain ⟨short, h₅⟩ := ok_of_guard h₄
    obtain ⟨payload, c₄, s₄, last, h₆⟩ := ok_of_bind h₅
    obtain ⟨split₄, stored, -, rfl⟩ := ok_of_take last
    cases h₆
    obtain ⟨compression, lens, rfl⟩ := List.exists_cons_of_length_eq_add_one nine
    rw [List.length_cons, Nat.add_right_cancel_iff] at nine
    simp only [headD_cons, List.drop_succ_cons, List.drop_zero] at low short stored ⊢
    have four : (lens.take 4).length = 4 := by rw [List.length_take, nine]; rfl
    have four' : (lens.drop 4).length = 4 := by rw [List.length_drop, nine]
    have word : ofLe (lens.take 4) < 256 ^ 4 := lt_of_lt_of_eq (ofLe_lt _) (congrArg (256 ^ ·) four)
    have raw : (UInt32.ofNat (ofLe (lens.take 4))).toNat = ofLe (lens.take 4) := Nat.mod_eq_of_lt word
    obtain ⟨shortRaw, short⟩ := not_or.mp short
    have first : le 4 (ofLe (lens.take 4)) = lens.take 4 := by
      have back := le_ofLe (lens.take 4)
      rwa [four] at back
    have second : le 4 (ofLe (lens.drop 4)) = lens.drop 4 := by
      have back := le_ofLe (lens.drop 4)
      rwa [four'] at back
    refine ⟨⟨UInt8.not_lt.mp low, by rw [raw]; exact Nat.not_lt.mp shortRaw, by rw [stored]; exact Nat.not_lt.mp short⟩, ?_, trivial⟩
    rw [split, split₃, split₄, encodeInstr, encodeSizes, raw, stored, first, second, List.take_append_drop]
    simp only [append_assoc, cons_append]
  · cases h₂

/-- What holds of the instructions of a delivery that was read. -/
def HasRoom (instrs : List DeliveryInstr) : Prop := instrs.length < 2 ^ 32 ∧ ∀ instr ∈ instrs, instr.Fits

theorem BatchResponse.within_iff {resp : BatchResponse} : resp.Within ↔
    (resp.inits.length < 2 ^ 32 ∧ ∀ init ∈ resp.inits, HasRoom init.instrs) ∧
    resp.segments.length < 2 ^ 32 ∧ ∀ seg ∈ resp.segments, HasRoom seg.instrs := by
  constructor
  · intro within
    refine ⟨⟨within.inits, fun init mem => ⟨within.ofInit init mem, fun instr here => ?_⟩⟩,
      within.segments, fun seg mem => ⟨within.ofSegment seg mem, fun instr here => ?_⟩⟩
    · exact within.instrs instr (List.mem_append_left _ (mem_flatMap.mpr ⟨init, mem, here⟩))
    · exact within.instrs instr (List.mem_append_right _ (mem_flatMap.mpr ⟨seg, mem, here⟩))
  · rintro ⟨⟨inits, ofInit⟩, segments, ofSegment⟩
    refine ⟨⟨inits, segments, fun init mem => (ofInit init mem).1, fun seg mem => (ofSegment seg mem).1⟩, fun instr mem => ?_⟩
    rcases List.mem_append.mp mem with mem | mem
    · obtain ⟨init, mem, here⟩ := mem_flatMap.mp mem
      exact (ofInit init mem).2 instr here
    · obtain ⟨seg, mem, here⟩ := mem_flatMap.mp mem
      exact (ofSegment seg mem).2 instr here

end Room

section Buffer

variable {instrs : List DeliveryInstr} {init : InitDelivery} {seg : SegmentDelivery} {resp : BatchResponse}
  {p : Nat}

theorem ok_of_decodeInstrs {S : Type} {s t : S} {c d : Cursor} (h : decodeInstrs s c = (.ok (instrs, d), t)) :
    HasRoom instrs ∧ c.rest = encodeInstrs instrs ++ d.rest := by
  obtain ⟨n, c₁, s₁, read, h₁⟩ := ok_of_bind h
  obtain ⟨split, word, -⟩ := ok_of_num read
  obtain ⟨rfl, fits, split₁⟩ := ok_of_collect ok_of_decodeInstr h₁
  refine ⟨⟨word, fits⟩, ?_⟩
  rw [split, split₁, encodeInstrs, append_assoc]

theorem ok_of_decodeInit {S : Type} {s t : S} {c d : Cursor} (h : decodeInit s c = (.ok (init, d), t)) :
    HasRoom init.instrs ∧ c.rest = encodeInit init ++ d.rest := by
  obtain ⟨id, c₁, s₁, read, h₁⟩ := ok_of_bind h
  obtain ⟨split, word, -⟩ := ok_of_num read
  obtain ⟨instrs, c₂, s₂, read, h₂⟩ := ok_of_bind h₁
  obtain ⟨room, split₁⟩ := ok_of_decodeInstrs read
  cases h₂
  have same : (UInt32.ofNat id).toNat = id := Nat.mod_eq_of_lt word
  refine ⟨room, ?_⟩
  rw [split, split₁, encodeInit, same, append_assoc]

theorem ok_of_decodeSegmentDelivery {S : Type} {s t : S} {c d : Cursor}
    (h : decodeSegmentDelivery s c = (.ok (seg, d), t)) :
    HasRoom seg.instrs ∧ c.rest = encodeSegmentDelivery seg ++ d.rest := by
  obtain ⟨id, c₁, s₁, read, h₁⟩ := ok_of_bind h
  obtain ⟨split, word, -⟩ := ok_of_num read
  obtain ⟨instrs, c₂, s₂, read, h₂⟩ := ok_of_bind h₁
  obtain ⟨room, split₁⟩ := ok_of_decodeInstrs read
  cases h₂
  have same : (UInt64.ofNat id).toNat = id := Nat.mod_eq_of_lt word
  refine ⟨room, ?_⟩
  rw [split, split₁, encodeSegmentDelivery, same, append_assoc]

/-- What the buffered decoder accepts is the encoding of its result. -/
theorem ok_of_decode {b : Bytes} (h : BatchResponse.decode b = .ok resp) :
    b = resp.encode ∧ resp.Within := by
  unfold BatchResponse.decode at h
  cases run : readBatch () ⟨0, b⟩ with
  | mk result t =>
      rw [run] at h
      cases result with
      | error e => cases h
      | ok p =>
          obtain ⟨resp', d⟩ := p
          obtain rfl : resp' = resp := Except.ok.inj h
          obtain ⟨magic, c₁, s₁, taken, run₁⟩ := ok_of_bind run
          obtain ⟨split₁, -⟩ := ok_of_take taken
          obtain ⟨isMagic, run₂⟩ := ok_of_guard run₁
          obtain ⟨version, c₂, s₂, taken, run₃⟩ := ok_of_bind run₂
          obtain ⟨split₂, -⟩ := ok_of_take taken
          obtain ⟨isVersion, run₄⟩ := ok_of_guard run₃
          obtain ⟨initCount, c₃, s₃, read, run₅⟩ := ok_of_bind run₄
          obtain ⟨split₃, word, -⟩ := ok_of_num read
          obtain ⟨inits, c₄, s₄, front, run₆⟩ := ok_of_bind run₅
          obtain ⟨rfl, ofInit, split₄⟩ := ok_of_collect ok_of_decodeInit front
          obtain ⟨segCount, c₅, s₅, counted, run₇⟩ := ok_of_bind run₆
          obtain ⟨split₅, word', -⟩ := ok_of_num counted
          obtain ⟨segments, c₆, s₆, back, run₈⟩ := ok_of_bind run₇
          obtain ⟨rfl, ofSegment, split₆⟩ := ok_of_collect ok_of_decodeSegmentDelivery back
          obtain ⟨left, c₇, s₇, rest, run₉⟩ := ok_of_bind run₈
          cases rest
          obtain ⟨nothing, run₁₀⟩ := ok_of_guard run₉
          cases run₁₀
          have done : d.rest = [] := List.length_eq_zero_iff.mp (not_not.mp nothing)
          refine ⟨?_, BatchResponse.within_iff.mpr ⟨⟨word, ofInit⟩, word', ofSegment⟩⟩
          change b = _ at split₁
          rw [split₁, split₂, split₃, split₄, split₅, split₆, done, not_not.mp isMagic, not_not.mp isVersion,
            BatchResponse.encode]
          simp only [append_assoc, append_nil]

theorem decodeInstr_scans {S : Type} {s : S} {instr : DeliveryInstr} (fits : instr.Fits) :
    Scans decodeInstr s p (encodeInstr instr) instr s := by
  cases instr with
  | ref hash =>
      refine .bind (.take (show [(0 : UInt8)].length = 1 from rfl)) ?_
      refine .bind_pure (.take hash.2) ?_
      exact .pure_bind (.ofOption (hashOf_val hash)) (.pure _)
  | inline hash lenRaw compression payload =>
      obtain ⟨known, shortRaw, short⟩ := fits
      have small : payload.length < 256 ^ 4 := by
        rw [maxWireChunk] at short
        omega
      have parts : encodeInstr (.inline hash lenRaw compression payload) =
          [1] ++ (hash.1 ++ ([compression] ++ (le 4 lenRaw.toNat ++ (le 4 payload.length ++ payload)))) := by
        simp only [encodeInstr, encodeSizes, cons_append, append_assoc, nil_append]
      rw [parts]
      refine .bind (.take rfl) (.bind (.take hash.2) ?_)
      refine .pure_bind (.ofOption (hashOf_val hash)) ?_
      refine .bind (.take rfl) ?_
      rw [headD_cons, if_neg (UInt8.not_lt.mpr known)]
      refine .bind (.num lenRaw.toNat_lt) (.bind (.num small) ?_)
      rw [if_neg (by omega), UInt32.ofNat_toNat]
      exact .bind_pure (.take rfl) (.pure _)

theorem decodeInstrs_scans {S : Type} {s : S} (room : HasRoom instrs) :
    Scans decodeInstrs s p (encodeInstrs instrs) instrs s := by
  refine .bind (.num room.1) ?_
  have all := fun p => @Scans.collect ProtoError S DeliveryInstr decodeInstr _ encodeInstr id instrs s
    (fun i mem p => decodeInstr_scans (room.2 i mem)) p
  rw [map_id] at all
  exact all _

theorem decodeInit_scans {S : Type} {s : S} (room : HasRoom init.instrs) :
    Scans decodeInit s p (encodeInit init) init s := by
  refine .bind (.num init.trackId.toNat_lt) ?_
  rw [UInt32.ofNat_toNat]
  exact .bind_pure (decodeInstrs_scans room) (.pure _)

theorem decodeSegmentDelivery_scans {S : Type} {s : S} (room : HasRoom seg.instrs) :
    Scans decodeSegmentDelivery s p (encodeSegmentDelivery seg) seg s := by
  refine .bind (.num seg.segmentId.toNat_lt) ?_
  rw [UInt64.ofNat_toNat]
  exact .bind_pure (decodeInstrs_scans room) (.pure _)

/-- A response with room on the wire is read back. -/
theorem decode_encode_within (within : resp.Within) : BatchResponse.decode resp.encode = .ok resp := by
  obtain ⟨⟨few, ofInit⟩, few', ofSegment⟩ := BatchResponse.within_iff.mp within
  have inits := fun p => @Scans.collect ProtoError Unit InitDelivery decodeInit _ encodeInit id resp.inits ()
    (fun i mem p => decodeInit_scans (ofInit i mem)) p
  have segments := fun p => @Scans.collect ProtoError Unit SegmentDelivery decodeSegmentDelivery _ encodeSegmentDelivery id
    resp.segments () (fun i mem p => decodeSegmentDelivery_scans (ofSegment i mem)) p
  rw [map_id] at inits segments
  have whole : Reads readBatch () resp.encode resp True := by
    unfold BatchResponse.encode
    rw [append_assoc batchMagic, append_assoc (le 4 resp.inits.length)]
    have magic : batchMagic.length = 4 := rfl
    have version : [batchVersion].length = 1 := rfl
    refine (Reads.bind (.of_scans fun _ => .take magic) fun _ => Reads.guard fun _ =>
      Reads.bind (.of_scans fun _ => .take version) fun _ => Reads.guard fun _ =>
      Reads.bind (.of_scans fun _ => .num few) fun _ => Reads.bind (.of_scans inits) fun _ =>
      Reads.bind (.of_scans fun _ => .num few') fun _ => Reads.last (.of_scans segments) fun _ =>
      Reads.remaining <| Reads.guard fun _ => Reads.pure _).congr ?_
    simp
  rw [BatchResponse.decode, whole.runs trivial 0]
  rfl

end Buffer

section Stream
variable {S : Type} {s t : S} {p : Nat} {c d : Cursor} {after : S → BatchItem → S} {resp : BatchResponse}

/-- A consumer that takes every item. -/
def accepting (after : S → BatchItem → S) : BatchItem → S → Except String Unit × S := fun item s => (.ok (), after s item)

/-- How a list of deliveries stands on the wire and in the stream. -/
structure Delivered (R : Type) (idLen : Nat) (start : Nat → UInt32 → BatchItem) where
  make : Nat → List DeliveryInstr → R
  id : R → Nat
  instrs : R → List DeliveryInstr
  enc : R → Bytes
  items : R → List BatchItem
  id_lt : ∀ r, id r < 256 ^ idLen
  enc_eq : ∀ r, enc r = le idLen (id r) ++ encodeInstrs (instrs r)
  items_eq : ∀ r, items r = start (id r) (UInt32.ofNat (instrs r).length) :: (instrs r).map .instr
  make_id : ∀ n < 256 ^ idLen, ∀ l, id (make n l) = n
  make_instrs : ∀ n l, instrs (make n l) = l

def initDelivered : Delivered InitDelivery 4 startInit where
  make id instrs := ⟨UInt32.ofNat id, instrs⟩
  id init := init.trackId.toNat
  instrs := InitDelivery.instrs
  enc := encodeInit
  items := InitDelivery.items
  id_lt init := init.trackId.toNat_lt
  enc_eq _ := rfl
  items_eq init := by rw [startInit, UInt32.ofNat_toNat, InitDelivery.items]
  make_id _ word _ := Nat.mod_eq_of_lt word
  make_instrs _ _ := rfl

def segmentDelivered : Delivered SegmentDelivery 8 startSegment where
  make id instrs := ⟨UInt64.ofNat id, instrs⟩
  id seg := seg.segmentId.toNat
  instrs := SegmentDelivery.instrs
  enc := encodeSegmentDelivery
  items := SegmentDelivery.items
  id_lt seg := seg.segmentId.toNat_lt
  enc_eq _ := rfl
  items_eq seg := by rw [startSegment, UInt64.ofNat_toNat, SegmentDelivery.items]
  make_id _ word _ := Nat.mod_eq_of_lt word
  make_instrs _ _ := rfl

variable {R : Type} {idLen : Nat} {start : Nat → UInt32 → BatchItem} (as : Delivered R idLen start)

theorem ok_of_streamInstr (h : streamInstr (accepting after) s c = (.ok ((), d), t)) :
    ∃ instr : DeliveryInstr, instr.Fits ∧ c.rest = encodeInstr instr ++ d.rest ∧ t = after s (.instr instr) := by
  obtain ⟨instr, c₁, s₁, read, handed⟩ := ok_of_bind h
  obtain ⟨fits, split, rfl⟩ := ok_of_readInstr read
  cases handed
  exact ⟨instr, fits, split, rfl⟩

theorem ok_of_streamDelivery (h : streamDelivery (accepting after) idLen start s c = (.ok ((), d), t)) :
    ∃ r, HasRoom (as.instrs r) ∧ c.rest = as.enc r ++ d.rest ∧ t = (as.items r).foldl after s := by
  obtain ⟨id, c₁, s₁, read, h₁⟩ := ok_of_bind h
  obtain ⟨split₁, word, rfl⟩ := ok_of_num read
  obtain ⟨n, c₂, s₂, counted, h₂⟩ := ok_of_bind h₁
  obtain ⟨split₂, few, rfl⟩ := ok_of_num counted
  obtain ⟨_, c₃, s₃, handed, h₃⟩ := ok_of_bind h₂
  cases handed
  obtain ⟨l, rfl, fits, split₃, rfl⟩ := ok_of_times ok_of_streamInstr h₃
  have room : HasRoom l := ⟨few, fits⟩
  refine ⟨as.make id l, by rwa [as.make_instrs], ?_, ?_⟩
  · rw [split₁, split₂, split₃, as.enc_eq, as.make_id id word, as.make_instrs, encodeInstrs]
    simp only [append_assoc]
  · rw [as.items_eq, as.make_id id word, as.make_instrs, foldl_cons, List.foldl_map]

theorem ok_of_streamSection (h : streamSection (accepting after) idLen start s c = (.ok ((), d), t)) :
    ∃ l : List R, l.length < 2 ^ 32 ∧ (∀ r ∈ l, HasRoom (as.instrs r)) ∧
      c.rest = le 4 l.length ++ l.flatMap as.enc ++ d.rest ∧ t = (l.flatMap as.items).foldl after s := by
  obtain ⟨n, c₁, s₁, read, h₁⟩ := ok_of_bind h
  obtain ⟨split, few, rfl⟩ := ok_of_num read
  obtain ⟨l, rfl, room, split₁, rfl⟩ := ok_of_times (ok_of_streamDelivery as) h₁
  refine ⟨l, few, room, ?_, ?_⟩
  · rw [split, split₁, append_assoc]
  · rw [List.foldl_flatMap]

theorem ok_of_decodeStream (h : decodeStream (accepting after) s c = (.ok ((), d), t)) :
    ∃ resp : BatchResponse, resp.Within ∧ c.rest = resp.encode ++ d.rest ∧ t = resp.items.foldl after s := by
  obtain ⟨header, c₁, s₁, taken, h₁⟩ := ok_of_bind h
  obtain ⟨split, -, -, rfl⟩ := ok_of_take taken
  obtain ⟨isHeader, h₂⟩ := ok_of_guard h₁
  obtain ⟨_, c₂, s₂, front, back⟩ := ok_of_bind h₂
  obtain ⟨inits, few, ofInit, split₁, rfl⟩ := ok_of_streamSection initDelivered front
  obtain ⟨segments, few', ofSegment, split₂, rfl⟩ := ok_of_streamSection segmentDelivered back
  refine ⟨⟨inits, segments⟩, BatchResponse.within_iff.mpr ⟨⟨few, ofInit⟩, few', ofSegment⟩, ?_, ?_⟩
  · rw [split, split₁, split₂, not_not.mp isHeader]
    simp only [BatchResponse.encode, initDelivered, segmentDelivered, append_assoc]
  · rw [BatchResponse.items, List.foldl_append]
    rfl

variable {onItem : BatchItem → S → Except String Unit × S}

/-- What a consumer that takes every one of these items has after them. -/
def TakesEach (onItem : BatchItem → S → Except String Unit × S) (after : S → BatchItem → S) (items : List BatchItem) :
    Prop := ∀ item ∈ items, ∀ s, onItem item s = (.ok (), after s item)

theorem handItem_scans {item : BatchItem} (takes : ∀ s, onItem item s = (.ok (), after s item)) :
    Scans (handItem onItem item) s p [] () (after s item) := by
  intro rest
  rw [handItem, takes]
  rfl

theorem streamDelivery_scans {r : R} (room : HasRoom (as.instrs r)) (takes : TakesEach onItem after (as.items r)) :
    Scans (streamDelivery onItem idLen start) s p (as.enc r) () ((as.items r).foldl after s) := by
  rw [TakesEach, as.items_eq] at takes
  obtain ⟨first, takes⟩ := List.forall_mem_cons.mp takes
  rw [as.enc_eq, as.items_eq, foldl_cons]
  refine (Scans.num (as.id_lt r)).bind ((Scans.num room.1).bind ?_)
  refine Scans.pure_bind (handItem_scans first) ?_
  have item : ∀ instr ∈ as.instrs r, ∀ s p, Scans (streamInstr onItem) s p (encodeInstr instr) ()
      (after s (.instr instr)) :=
    fun instr mem s p => (readInstr_scans (room.2 instr mem)).bind_pure (handItem_scans (takes _ (List.mem_map_of_mem mem)))
  have loop := fun s p => Scans.times encodeInstr (as.instrs r) (fun s _ instr => after s (.instr instr)) item s p
  simp only [foldl_places encodeInstr _ (as.instrs r) fun s instr => after s (.instr instr)] at loop
  rw [List.foldl_map]
  exact loop _ _

theorem streamSection_scans {l : List R} (few : l.length < 2 ^ 32) (room : ∀ r ∈ l, HasRoom (as.instrs r))
    (takes : TakesEach onItem after (l.flatMap as.items)) :
    Scans (streamSection onItem idLen start) s p (le 4 l.length ++ l.flatMap as.enc) ()
      ((l.flatMap as.items).foldl after s) := by
  refine (Scans.num few).bind ?_
  have loop := fun p => Scans.times as.enc l (fun s _ r => (as.items r).foldl after s)
    (fun r mem s p => streamDelivery_scans as (room r mem) fun item here =>
      takes item (mem_flatMap.mpr ⟨r, mem, here⟩)) s p
  simp only [foldl_places as.enc _ l fun s r => (as.items r).foldl after s] at loop
  rw [List.foldl_flatMap]
  exact loop _

theorem decodeStream_scans (within : resp.Within) (takes : TakesEach onItem after resp.items) :
    Scans (decodeStream onItem) s p resp.encode () (resp.items.foldl after s) := by
  obtain ⟨⟨few, ofInit⟩, few', ofSegment⟩ := BatchResponse.within_iff.mp within
  have header : (batchMagic ++ [batchVersion]).length = 5 := rfl
  unfold decodeStream BatchResponse.encode
  refine (Scans.take header).bind ?_
  rw [if_neg (not_not.mpr rfl), BatchResponse.items, List.foldl_append]
  exact (streamSection_scans initDelivered few ofInit fun item mem => takes item (List.mem_append_left _ mem)).bind
    (streamSection_scans segmentDelivered few' ofSegment fun item mem => takes item (List.mem_append_right _ mem))

/-- A consumer that takes every item of a response has them all in their order. -/
theorem decodeStream_encode (within : resp.Within) (takes : TakesEach onItem after resp.items) (s : S) :
    decodeStream onItem s ⟨0, resp.encode⟩ = (.ok ((), ⟨resp.encode.length, []⟩), resp.items.foldl after s) := by
  simpa using (decodeStream_scans (p := 0) within takes).whole

/-- A stream that succeeds and leaves no byte hands over the items of what the buffered decoder gives. -/
theorem decodeStream_ok_iff (after : S → BatchItem → S) (s t : S) (b : Bytes) :
    decodeStream (accepting after) s ⟨0, b⟩ = (.ok ((), ⟨b.length, []⟩), t) ↔
      ∃ resp, BatchResponse.decode b = .ok resp ∧ t = resp.items.foldl after s := by
  constructor
  · intro h
    obtain ⟨resp, within, split, rfl⟩ := ok_of_decodeStream h
    obtain rfl : b = resp.encode := split.trans (append_nil _)
    exact ⟨resp, decode_encode_within within, rfl⟩
  · rintro ⟨resp, decoded, rfl⟩
    obtain ⟨rfl, within⟩ := ok_of_decode decoded
    exact decodeStream_encode within (fun _ _ _ => rfl) s

end Stream

/-- The stream decoder over a byte string, with a consumer that keeps every item. -/
def streamed (b : Bytes) : Except ProtoError (Unit × Cursor) × List BatchItem :=
  decodeStream (accepting fun items item => items ++ [item]) [] ⟨0, b⟩

theorem foldl_snoc (l items : List BatchItem) : l.foldl (fun items item => items ++ [item]) items = items ++ l := by
  induction l generalizing items with
  | nil => rw [List.foldl_nil, append_nil]
  | cons item l ih => rw [foldl_cons, ih, append_assoc, List.singleton_append]

/-- The two decoders accept the same bytes and the items of the stream regroup to what is decoded
from the buffer; a response with room on the wire is read back. -/
theorem batch_decoders_agree (b : Bytes) (resp : BatchResponse) :
    (BatchResponse.decode b = .ok resp ↔
      ∃ items, streamed b = (.ok ((), ⟨b.length, []⟩), items) ∧ regroup items = resp) ∧
    (resp.Within → BatchResponse.decode resp.encode = .ok resp) := by
  refine ⟨?_, decode_encode_within⟩
  constructor
  · intro decoded
    refine ⟨resp.items, (decodeStream_ok_iff _ _ _ _).mpr ⟨resp, decoded, ?_⟩, regroup_items resp⟩
    rw [foldl_snoc, nil_append]
  · rintro ⟨items, streams, rfl⟩
    obtain ⟨resp, decoded, rfl⟩ := (decodeStream_ok_iff _ _ _ _).mp streams
    rw [foldl_snoc, nil_append, regroup_items]
    exact decoded

/-- One track and one segment, with an instruction of each kind. -/
def twoDeliveries : BatchResponse := ⟨[⟨3, [.ref zeroHash]⟩], [⟨9, [.inline zeroHash 2 0 [7, 8]]⟩]⟩

theorem twoDeliveries_within : twoDeliveries.Within := by
  rw [BatchResponse.within_iff]
  simp [twoDeliveries, HasRoom, DeliveryInstr.Fits, maxWireChunk, compressionZstd]

theorem batch_decoders_agree_two : BatchResponse.decode twoDeliveries.encode = .ok twoDeliveries :=
  (batch_decoders_agree twoDeliveries.encode twoDeliveries).2 twoDeliveries_within

end Cavs
