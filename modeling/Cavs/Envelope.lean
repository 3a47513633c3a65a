import Cavs.Leb128
import Cavs.ObjectId

/-!
# The wire form of an object

Varints, ids and envelopes. Each reader takes exactly what its writer wrote; of an
envelope a store needs the dependencies only, the body is not looked at.
-/
namespace Cavs
open FileProg (Bytes)
open ByteScan

/-- A scanner of objects and bundles; it keeps no state. -/
abbrev ObjScan (α : Type) := Scan ObjectError Unit α

section Varint

/-- Seven bits a byte, least significant first, all but the last with the top bit set;
`more` bytes may follow the first. -/
def varuintBytes : (more : Nat) → Nat → Bytes
  | 0, value => [UInt8.ofNat value]
  | more + 1, value =>
      if value ≥ 0x80 then UInt8.ofNat (value % 0x80 + 0x80) :: varuintBytes more (value / 0x80)
      else [UInt8.ofNat value]

/-- The encoding of a 64-bit number. -/
def writeVaruint (value : Nat) : Bytes := varuintBytes 9 value

/-- The rest of a varint: byte `i` is read next and `left` more may follow it. -/
def readVaruintFrom : (left i value : Nat) → ObjScan Nat
  | 0, i, value => do
      let byte := ofLe (← Scan.take (.truncated "varint") 1)
      -- The last byte carries the one remaining bit of 64.
      if byte = 0 ∧ i ≠ 0 then Scan.throw .varintNotCanonical
      else if byte > 1 then Scan.throw .varintNotCanonical
      else return value + byte * 2 ^ (7 * i)
  | left + 1, i, value => do
      let byte := ofLe (← Scan.take (.truncated "varint") 1)
      if byte = 0 ∧ i ≠ 0 then Scan.throw .varintNotCanonical
      else if byte < 0x80 then return value + byte * 2 ^ (7 * i)
      else readVaruintFrom left (i + 1) (value + byte % 0x80 * 2 ^ (7 * i))

def readVaruint : ObjScan Nat := readVaruintFrom 9 0 0

theorem varuintBytes_eq (more value : Nat) : varuintBytes more value = Leb.bytes more value := by
  induction more generalizing value with
  | zero => rfl
  | succ more ih => rw [varuintBytes, Leb.bytes, ih]

theorem readVaruintFrom_eq (left i value : Nat) : readVaruintFrom left i value =
    Leb.readFrom (.truncated "varint") .varintNotCanonical .varintNotCanonical left i value := by
  induction left generalizing i value with
  | zero => rfl
  | succ left ih => simp only [readVaruintFrom, Leb.readFrom, ih]

theorem readVaruint_scans {value p : Nat} (small : value < 2 ^ 64) :
    Scans readVaruint () p (writeVaruint value) value () := by
  rw [readVaruint, readVaruintFrom_eq, writeVaruint, varuintBytes_eq]
  exact Leb.read_scans small

/-- What was read is the encoding of the number that came of it. -/
theorem readVaruint_ok {x : Nat} {c d : Cursor} {t : Unit} (run : readVaruint () c = (.ok (x, d), t)) :
    x < 2 ^ 64 ∧ c.rest = writeVaruint x ++ d.rest := by
  rw [readVaruint, readVaruintFrom_eq] at run
  rw [writeVaruint, varuintBytes_eq]
  exact Leb.read_ok run

theorem writeVaruint_length_pos (n : Nat) : 1 ≤ (writeVaruint n).length := by
  rw [writeVaruint, varuintBytes_eq]
  exact Leb.bytes_length_pos 9 n

/-- A number is read back, and what follows it with it. -/
theorem writeVaruint_inj {a b : Nat} {x y : Bytes} (small : a < 2 ^ 64) (small' : b < 2 ^ 64)
    (same : writeVaruint a ++ x = writeVaruint b ++ y) : a = b ∧ x = y := by
  have left := readVaruint_scans (p := 0) small x
  have right := readVaruint_scans (p := 0) small' y
  rw [same, right] at left
  cases left
  exact ⟨rfl, rfl⟩

end Varint

section Ids

def writeId (id : ObjectId) : Bytes := id.algorithm.code :: id.digest.1

theorem writeId_length (id : ObjectId) : (writeId id).length = 33 := by
  rw [writeId, List.length_cons, id.digest.2]

/-- Thirty-two bytes as a digest. -/
def readDigest (what : String) : ObjScan ChunkHash := do
  let bytes ← Scan.take (.truncated what) 32
  if h : bytes.length = 32 then return ⟨bytes, h⟩ else Scan.throw (.truncated what)

def readIdAs (algorithm digest : String) : ObjScan ObjectId := do
  let code := (← Scan.take (.truncated algorithm) 1).headD 0
  let algorithm ← Scan.ofOption (.unknownHashAlgorithm code) (HashAlgorithm.fromCode code)
  return ⟨algorithm, ← readDigest digest⟩

theorem readDigest_scans {what : String} (h : ChunkHash) {p : Nat} :
    Scans (readDigest what) () p h.1 h () := by
  refine .bind_pure (.take h.2) ?_
  rw [dif_pos h.2]
  exact .pure _

theorem readIdAs_scans {algorithm digest : String} (id : ObjectId) {p : Nat} :
    Scans (readIdAs algorithm digest) () p (writeId id) id () := by
  obtain ⟨⟨⟩, h⟩ := id
  refine .bind (b := [1]) (.take rfl) (.pure_bind (.ofOption rfl) ?_)
  exact .bind_pure (readDigest_scans h) (.pure _)

end Ids

/-- Ceilings on what is decoded. -/
structure DecodeLimits where
  maxEncodedLen : Nat
  maxBodyLen : Nat
  maxDependencies : Nat
  maxPayloadLen : Nat
  deriving DecidableEq, Repr

def DecodeLimits.default : DecodeLimits := ⟨64 * 1024 * 1024, 64 * 1024 * 1024, 2 ^ 20, 2 ^ 30⟩

def DecodeLimits.maxLenFor (limits : DecodeLimits) (kind : ObjectKind) : Nat :=
  if kind.isPayload then limits.maxPayloadLen else limits.maxEncodedLen

structure ObjectEnvelope where
  formatVersion : Nat
  kind : ObjectKind
  dependencies : List ObjectId
  body : Bytes
  deriving DecidableEq, Repr

section Envelope

/-- Ids are ordered by digest, there being one algorithm. -/
def idLt (a b : ObjectId) : Bool := compare a.digest.1 b.digest.1 = .lt

/-- The dependencies of an envelope, strictly ascending. -/
def readDependencies : (count : Nat) → (previous : Option ObjectId) → ObjScan (List ObjectId)
  | 0, _ => pure []
  | count + 1, previous => do
      let id ← readIdAs "dependency algorithm" "dependency digest"
      let ascends := match previous with
        | some prev => idLt prev id
        | none => true
      if ascends then return id :: (← readDependencies count (some id))
      else Scan.throw .dependenciesNotCanonical

def readEnvelope (kind : ObjectKind) (limits : DecodeLimits) : ObjScan ObjectEnvelope := do
  let version ← Scan.num (.truncated "format_version") 2
  if version ≠ 1 then Scan.throw (.unsupportedFormat version) else
  let tag ← Scan.num (.truncated "kind") 4
  let found ← Scan.ofOption (.unknownKind tag) (ObjectKind.fromTag tag)
  if found ≠ kind then Scan.throw (.kindMismatch kind found) else
  let count ← readVaruint
  if count > limits.maxDependencies then
    Scan.throw (.tooManyDependencies count limits.maxDependencies) else
  let left ← Scan.remaining
  if count * 33 > left then Scan.throw (.truncated "dependencies") else
  let dependencies ← readDependencies count none
  let bodyLen ← readVaruint
  if bodyLen > limits.maxBodyLen then Scan.throw (.tooLarge "body" bodyLen limits.maxBodyLen) else
  let left ← Scan.remaining
  if bodyLen ≠ left then Scan.throw .trailingBytes else
  return ⟨version, kind, dependencies, ← Scan.take .trailingBytes bodyLen⟩

/-- Decode bytes as an object of a class. A chunk has no envelope. -/
def decodeEnvelope (kind : ObjectKind) (bytes : Bytes) (limits : DecodeLimits) :
    Except ObjectError ObjectEnvelope :=
  if bytes.length > limits.maxLenFor kind then
    .error (.tooLarge "object" bytes.length (limits.maxLenFor kind))
  else if kind.isPayload then .ok ⟨1, kind, [], bytes⟩
  else (readEnvelope kind limits () ⟨0, bytes⟩).1.map Prod.fst

end Envelope
end Cavs
