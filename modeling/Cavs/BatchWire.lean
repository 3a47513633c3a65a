import Cavs.SessionHonest

/-!
# Batches on the wire

A response is encoded whole and decoded item by item: each goes to a consumer and is gone, so
what was consumed before an error stays consumed.
-/
namespace Cavs
open FileProg (Bytes)
open ByteScan

section Encode

def batchMagic : Bytes := [0x43, 0x56, 0x53, 0x50]
def batchVersion : UInt8 := 2

/-- The longest chunk a decoder takes, raw or on the wire. -/
def maxWireChunk : Nat := 256 * 1024 * 1024

def encodeSizes (lenRaw : UInt32) (compression : UInt8) (stored : Nat) : Bytes :=
  compression :: (le 4 lenRaw.toNat ++ le 4 stored)

def encodeInstr : DeliveryInstr → Bytes
  | .ref hash => 0 :: hash.1
  | .inline hash lenRaw compression payload =>
      (1 :: hash.1) ++ (encodeSizes lenRaw compression payload.length ++ payload)

def encodeInstrs (instrs : List DeliveryInstr) : Bytes := le 4 instrs.length ++ instrs.flatMap encodeInstr

def encodeInit (init : InitDelivery) : Bytes := le 4 init.trackId.toNat ++ encodeInstrs init.instrs

def encodeSegmentDelivery (seg : SegmentDelivery) : Bytes := le 8 seg.segmentId.toNat ++ encodeInstrs seg.instrs

def BatchResponse.encode (resp : BatchResponse) : Bytes :=
  (batchMagic ++ [batchVersion]) ++ ((le 4 resp.inits.length ++ resp.inits.flatMap encodeInit) ++
    (le 4 resp.segments.length ++ resp.segments.flatMap encodeSegmentDelivery))

end Encode

section Decode

inductive ProtoError where
  | badHeader
  | malformed
  | io
  | consumer (what : String)
  deriving DecidableEq, Repr

/-- What a stream hands to its consumer. -/
inductive BatchItem where
  | init (trackId : UInt32) (instrCount : UInt32)
  | segment (segmentId : UInt64) (instrCount : UInt32)
  | instr (instr : DeliveryInstr)
  deriving DecidableEq, Repr

def BatchItem.asInstr : BatchItem → Option DeliveryInstr
  | .instr i => some i
  | _ => none

variable {S : Type}

/-- The rest of an inline instruction; its lengths are checked before the payload is read. -/
def readInline (hash : ChunkHash) : Scan ProtoError S DeliveryInstr := do
  let sizes ← Scan.take .io 9
  if sizes.headD 0 > compressionZstd then Scan.throw .malformed
  else if ofLe ((sizes.drop 1).take 4) > maxWireChunk ∨ ofLe (sizes.drop 5) > maxWireChunk then Scan.throw .malformed
  else do
    let payload ← Scan.take .io (ofLe (sizes.drop 5))
    return .inline hash (UInt32.ofNat (ofLe ((sizes.drop 1).take 4))) (sizes.headD 0) payload

def readInstr : Scan ProtoError S DeliveryInstr := do
  let tagHash ← Scan.take .io 33
  let hash ← Scan.ofOption .malformed (hashOf tagHash.tail)
  match tagHash.headD 0 with
  | 0 => return .ref hash
  | 1 => readInline hash
  | _ => Scan.throw .malformed

variable (onItem : BatchItem → S → Except String Unit × S)

def handItem (item : BatchItem) : Scan ProtoError S Unit := fun s c =>
  match onItem item s with
  | (.ok (), t) => (.ok ((), c), t)
  | (.error e, t) => (.error (.consumer e), t)

def streamInstr : Scan ProtoError S Unit := do
  let instr ← readInstr
  handItem onItem (.instr instr)

/-- One delivery: its start, and as many instructions as it announces. -/
def streamDelivery (idLen : Nat) (start : Nat → UInt32 → BatchItem) : Scan ProtoError S Unit := do
  let id ← Scan.num .io idLen
  let instrCount ← Scan.num .io 4
  handItem onItem (start id (UInt32.ofNat instrCount))
  Scan.times instrCount (streamInstr onItem)

def streamSection (idLen : Nat) (start : Nat → UInt32 → BatchItem) : Scan ProtoError S Unit := do
  let count ← Scan.num .io 4
  Scan.times count (streamDelivery onItem idLen start)

def startInit (id : Nat) : UInt32 → BatchItem := .init (UInt32.ofNat id)

def startSegment (id : Nat) : UInt32 → BatchItem := .segment (UInt64.ofNat id)

def decodeStream : Scan ProtoError S Unit := do
  let header ← Scan.take .io 5
  if header ≠ batchMagic ++ [batchVersion] then Scan.throw .badHeader
  else do
    streamSection onItem 4 startInit
    streamSection onItem 8 startSegment

end Decode

section Stream
variable {S : Type} {p : Nat} {s : S}

/-- An instruction a decoder takes. -/
def DeliveryInstr.Fits : DeliveryInstr → Prop
  | .ref _ => True
  | .inline _ lenRaw compression payload =>
      compression ≤ compressionZstd ∧ lenRaw.toNat ≤ maxWireChunk ∧ payload.length ≤ maxWireChunk

theorem readInline_scans {hash : ChunkHash} {lenRaw : UInt32} {compression : UInt8} {payload : Bytes}
    (fits : (DeliveryInstr.inline hash lenRaw compression payload).Fits) :
    Scans (readInline hash : Scan ProtoError S DeliveryInstr) s p
      (encodeSizes lenRaw compression payload.length ++ payload) (.inline hash lenRaw compression payload) s := by
  obtain ⟨known, shortRaw, short⟩ := fits
  have small : payload.length < 256 ^ 4 := by
    rw [maxWireChunk] at short
    omega
  have raw : ofLe (((encodeSizes lenRaw compression payload.length).drop 1).take 4) = lenRaw.toNat := by
    rw [encodeSizes, List.drop_one, List.tail_cons, List.take_left' (le_length 4 _)]
    exact ofLe_le lenRaw.toNat_lt
  have stored : ofLe ((encodeSizes lenRaw compression payload.length).drop 5) = payload.length := by
    rw [encodeSizes, List.drop_succ_cons, List.drop_left' (le_length 4 _)]
    exact ofLe_le small
  have sizes : (encodeSizes lenRaw compression payload.length).length = 9 := by simp [encodeSizes]
  refine (Scans.take sizes).bind ?_
  have first : (encodeSizes lenRaw compression payload.length).headD 0 = compression := rfl
  rw [raw, stored, first, if_neg (UInt8.not_lt.mpr known), if_neg (by omega), UInt32.ofNat_toNat]
  exact (Scans.take rfl).bind_pure (Scans.pure _)

theorem readInstr_scans {instr : DeliveryInstr} (fits : instr.Fits) :
    Scans (readInstr : Scan ProtoError S DeliveryInstr) s p (encodeInstr instr) instr s := by
  cases instr with
  | ref hash =>
      have long : (0 :: hash.1).length = 33 := congrArg Nat.succ hash.2
      refine .bind_pure (.take long) ?_
      exact .pure_bind (.ofOption (hashOf_val hash)) (.pure _)
  | inline hash lenRaw compression payload =>
      have long : (1 :: hash.1).length = 33 := congrArg Nat.succ hash.2
      refine .bind (.take long) ?_
      exact .pure_bind (.ofOption (hashOf_val hash)) (readInline_scans fits)

/-- The counts of a response have room on the wire. -/
structure BatchResponse.CountsFit (resp : BatchResponse) : Prop where
  inits : resp.inits.length < 2 ^ 32
  segments : resp.segments.length < 2 ^ 32
  ofInit : ∀ init ∈ resp.inits, init.instrs.length < 2 ^ 32
  ofSegment : ∀ seg ∈ resp.segments, seg.instrs.length < 2 ^ 32

end Stream

end Cavs
