import Cavs.ByteAudit
import Cavs.Countersign
import Cavs.Import

/-!
# What a hostile bundle can do

The functions that read a bundle, with the operations that can end the program and the room
they set aside. Three counts are not held against what follows them, and a row is not held
against the payload when an object is read without an import.
-/
namespace Cavs
open FileProg (Bytes)
open ByteScan ByteAudit
open Audit (add_ok ofExcept pure_bind slice_ok slice_prefix slice_suffix sub_ok)
open AuditScan (ofOption remaining reserve)

section Read
variable (zstd : Zstd) (limits : BundleLimits) (hash : Bytes → ChunkHash)

def auditVaruintFrom : (left i value : Nat) → AuditScan ObjectError Nat
  | 0, i, value => do
      let byte := ofLe (← AuditScan.take (.truncated "varint") 1)
      if byte = 0 ∧ i ≠ 0 then AuditScan.throw .varintNotCanonical
      else if byte > 1 then AuditScan.throw .varintNotCanonical
      else return value + byte * 2 ^ (7 * i)
  | left + 1, i, value => do
      let byte := ofLe (← AuditScan.take (.truncated "varint") 1)
      if byte = 0 ∧ i ≠ 0 then AuditScan.throw .varintNotCanonical
      else if byte < 0x80 then return value + byte * 2 ^ (7 * i)
      else auditVaruintFrom left (i + 1) (value + byte % 0x80 * 2 ^ (7 * i))

def auditVaruint : AuditScan ObjectError Nat := auditVaruintFrom 9 0 0

def auditDigest (what : String) : AuditScan ObjectError ChunkHash := do
  let bytes ← AuditScan.take (.truncated what) 32
  if h : bytes.length = 32 then return ⟨bytes, h⟩ else AuditScan.throw (.truncated what)

def auditIdAs (algorithm digest : String) : AuditScan ObjectError ObjectId := do
  let code := (← AuditScan.take (.truncated algorithm) 1).headD 0
  let algorithm ← ofOption (.unknownHashAlgorithm code) (HashAlgorithm.fromCode code)
  return ⟨algorithm, ← auditDigest digest⟩

def auditId : AuditScan ObjectError ObjectId := auditIdAs "hash algorithm" "object id"

def auditBounded (value max : Nat) (what : String) : AuditScan ObjectError Nat :=
  if value > max then AuditScan.throw (.tooLarge what value max) else pure value

/-- Fail when fewer bytes follow than `count` items have, or set room aside for them. -/
def auditReserve (e : ObjectError) (count item : Nat) : AuditScan ObjectError Unit := do
  let left ← remaining
  if count * item > left then AuditScan.throw e else reserve count item

def auditKind (what : String) : AuditScan ObjectError ObjectKind := do
  let tag ← AuditScan.num (.truncated what) 4
  ofOption (.unknownKind tag) (ObjectKind.fromTag tag)

def auditBundleRoot : AuditScan ObjectError (ObjectKind × ObjectId) := do
  let kind ← auditKind "root kind"
  return (kind, ← auditId)

def auditRef : AuditScan ObjectError BundleRef := do
  let nameLen ← auditVaruint
  if nameLen > 512 then AuditScan.throw badRefName else do
    let bytes ← AuditScan.take badRefName nameLen
    let name ← ofOption (.corrupt "bundle reference name is not UTF-8") (utf8 bytes)
    return ⟨name, ← auditId⟩

def auditRow : AuditScan ObjectError Row := do
  let kind ← auditKind "object kind"
  let id ← auditId
  let offset ← auditVaruint
  return ⟨kind, id, offset, ← auditVaruint⟩

def auditHeader : AuditScan ObjectError Header := do
  let formatVersion ← AuditScan.num (.truncated "format version") 2
  if formatVersion ≠ 1 then AuditScan.throw (.unsupportedFormat formatVersion) else do
  let flags ← AuditScan.num (.truncated "flags") 2
  if flags / 2 ≠ 0 then
    AuditScan.throw (.corrupt ("bundle sets flag bits " ++ lowerHex flags ++ " this build does not understand")) else do
  let compressed := flags % 2 = 1
  let createdAt ← AuditScan.num (.truncated "created_at") 8
  let rootCount ← auditBounded (← auditVaruint) limits.maxRoots "roots"
  reserve rootCount 37
  let roots ← AuditScan.collect rootCount auditBundleRoot
  let prerequisiteCount ← auditBounded (← auditVaruint) limits.maxObjects "prerequisites"
  auditReserve (.truncated "prerequisites") prerequisiteCount 33
  let prerequisites ← AuditScan.collect prerequisiteCount auditId
  let refCount ← auditBounded (← auditVaruint) limits.maxRefs "refs"
  reserve (min refCount 1024) 34
  let refs ← AuditScan.collect refCount auditRef
  let objectCount ← auditBounded (← auditVaruint) limits.maxObjects "objects"
  -- A row is at least 4 + 33 + 1 + 1 bytes.
  auditReserve (.corrupt "bundle object count is larger than the bytes that follow") objectCount 39
  let table ← AuditScan.collect objectCount auditRow
  let payloadLen ← AuditScan.num (.truncated "payload length") 8
  let payloadRawLen ← AuditScan.num (.truncated "payload raw length") 8
  if payloadRawLen > limits.maxPayloadBytes then
    AuditScan.throw (.tooLarge "bundle payload" payloadRawLen limits.maxPayloadBytes) else do
  if compressed ∧ payloadRawLen > min (max payloadLen 1 * limits.maxExpansionRatio) (2 ^ 64 - 1) then
    AuditScan.throw (.corrupt ("bundle claims " ++ toString payloadRawLen ++ " bytes from " ++ toString payloadLen ++
      " stored, past the " ++ toString limits.maxExpansionRatio ++ "x expansion this reader accepts")) else
  return ⟨formatVersion, compressed, createdAt, roots, prerequisites, refs, table, payloadLen, payloadRawLen⟩

def auditContent : AuditScan ObjectError Content := do
  let header ← auditHeader limits
  let stored ← AuditScan.take (.truncated "bundle payload") header.payloadLen
  let payload ← AuditScan.lift (decodePayload zstd header.compressed stored header.payloadRawLen)
  return ⟨header, payload⟩

def auditSignature : AuditScan ObjectError Signature := do
  let keyId ← AuditScan.take (.truncated "signature key id") 8
  return ⟨keyId, ← AuditScan.take (.truncated "signature") 64⟩

def auditSignatures : AuditScan ObjectError (List Signature) := do
  let count ← auditBounded (← auditVaruint) 64 "signatures"
  reserve count 72
  let signatures ← AuditScan.collect count auditSignature
  let left ← remaining
  if left ≠ 0 then AuditScan.throw .trailingBytes else return signatures

/-- The content and the signature block behind it. -/
def auditBody : AuditScan ObjectError (Content × List Signature) := do
  let content ← auditContent zstd limits
  return (content, ← auditSignatures)

def auditOpen (raw : Bytes) : Audit ObjectError OpenBundle :=
  if raw.length < bundleMagic.length + footerLen then .error (.truncated "bundle") else do
  let head ← Audit.slice raw 0 8
  if head ≠ bundleMagic then .error (.corrupt "this file does not start like a bundle") else do
  let footerAt ← Audit.sub raw.length footerLen
  let body ← Audit.slice raw 0 footerAt
  let footer ← Audit.slice raw footerAt raw.length
  let tail ← Audit.slice footer (footerLen - 8) footer.length
  if tail ≠ bundleMagic then
    .error (.corrupt "bundle does not end where a bundle ends; it is truncated or damaged") else do
  let covered ← Audit.sub raw.length 40
  let signedRegion ← Audit.slice raw 0 covered
  let fileChecksum ← Audit.slice footer 40 72
  if (hash signedRegion).1 ≠ fileChecksum then .error (.corrupt "bundle checksum does not match its contents") else do
  let contentLen ← Audit.slice footer 0 8
  let contentChecksum ← Audit.slice footer 8 40
  if ofLe contentLen > body.length then
    .error (.corrupt "bundle says its signed region runs past its own end") else do
  let content ← Audit.slice body 0 (ofLe contentLen)
  if (hash content).1 ≠ contentChecksum then
    .error (.corrupt "bundle content checksum does not match what the signatures cover") else do
  let input ← Audit.slice body 8 body.length
  let x ← auditBody zstd limits ⟨8, input⟩
  return ⟨x.1.1, x.1.2, contentChecksum⟩

end Read

section Sound
variable {zstd : Zstd} {limits : BundleLimits}
open AuditScan

theorem auditVaruintFrom_sound (left i value : Nat) : Sound (auditVaruintFrom left i value) (readVaruintFrom left i value) := by
  induction left generalizing i value with
  | zero => exact .bind (.take _ _) fun _ => .guard (.guard (.pure _))
  | succ left ih => exact .bind (.take _ _) fun _ => .guard (.ite (.pure _) (ih _ _))

theorem auditVaruint_sound : Sound auditVaruint readVaruint := auditVaruintFrom_sound 9 0 0

theorem auditDigest_sound (what : String) : Sound (auditDigest what) (readDigest what) := by
  refine .bind (.take _ _) fun bytes => ?_
  split
  · exact .pure _
  · exact .throw

theorem auditIdAs_sound (algorithm digest : String) : Sound (auditIdAs algorithm digest) (readIdAs algorithm digest) :=
  .bind (.take _ _) fun _ => .bind (.ofOption _ _) fun _ => .bind (auditDigest_sound _) fun _ => .pure _

theorem auditId_sound : Sound auditId readId := auditIdAs_sound _ _

theorem auditBounded_sound (value max : Nat) (what : String) : Sound (auditBounded value max what) (bounded value max what) :=
  .guard (.pure _)

theorem auditReserve_sound (e : ObjectError) (count item : Nat) : Sound (auditReserve e count item) (atLeast e (count * item)) :=
  .reserve count item

theorem auditKind_sound (what : String) : Sound (auditKind what) (readKind what) :=
  .bind (.num _ _) fun _ => .ofOption _ _

theorem auditBundleRoot_sound : Sound auditBundleRoot readBundleRoot :=
  .bind (auditKind_sound _) fun _ => .bind auditId_sound fun _ => .pure _

theorem auditRef_sound : Sound auditRef readRef :=
  .bind auditVaruint_sound fun _ => .guard
    (.bind (.take _ _) fun _ => .bind (.ofOption _ _) fun _ => .bind auditId_sound fun _ => .pure _)

theorem auditRow_sound : Sound auditRow readRow :=
  .bind (auditKind_sound _) fun _ => .bind auditId_sound fun _ => .bind auditVaruint_sound fun _ =>
    .bind auditVaruint_sound fun _ => .pure _

theorem auditSignature_sound : Sound auditSignature readSignature :=
  .bind (.take _ _) fun _ => .bind (.take _ _) fun _ => .pure _

end Sound

section Room
variable (zstd : Zstd) (limits : BundleLimits) (hash : Bytes → ChunkHash)

/-- How many roots a bundle says it has. -/
def readRootCount : ObjScan Nat := do
  let formatVersion ← Scan.num (.truncated "format version") 2
  if formatVersion ≠ 1 then Scan.throw (.unsupportedFormat formatVersion) else do
  let flags ← Scan.num (.truncated "flags") 2
  if flags / 2 ≠ 0 then
    Scan.throw (.corrupt ("bundle sets flag bits " ++ lowerHex flags ++ " this build does not understand")) else do
  let _ ← Scan.num (.truncated "created_at") 8
  bounded (← readVaruint) limits.maxRoots "roots"

/-- How many references. -/
def readRefCount : ObjScan Nat := do
  let rootCount ← readRootCount limits
  let _ ← Scan.collect rootCount readBundleRoot
  let prerequisiteCount ← bounded (← readVaruint) limits.maxObjects "prerequisites"
  atLeast (.truncated "prerequisites") (prerequisiteCount * 33)
  let _ ← Scan.collect prerequisiteCount readId
  bounded (← readVaruint) limits.maxRefs "refs"

/-- How many signatures. -/
def readSignatureCount : ObjScan Nat := do
  let _ ← readContent zstd limits
  bounded (← readVaruint) 64 "signatures"

open AuditScan

theorem auditHeader_follows : AuditScan.Follows (auditHeader limits) (readHeader limits) fun c =>
    (∀ n d, Reads (readRootCount limits) c n d → n * 37 ≤ d.rest.length) ∧
      ∀ n d, Reads (readRefCount limits) c n d → min n 1024 * 34 ≤ d.rest.length := by
  refine AuditScan.Follows.iff (.seq (.num _ _) fun _ => .guard (.seq (.num _ _) fun _ => .guard (.seq (.num _ _) fun _ =>
    .seq auditVaruint_sound fun _ => .seq (auditBounded_sound _ _ _) fun n =>
    .reserve _ _ (.seq (.collect auditBundleRoot_sound _) fun _ =>
    .seq auditVaruint_sound fun _ => .seq (auditBounded_sound _ _ _) fun _ => .seq (auditReserve_sound _ _ _) fun _ =>
    .seq (.collect auditId_sound _) fun _ => .seq auditVaruint_sound fun _ => .seq (auditBounded_sound _ _ _) fun _ =>
    .reserve _ _ (P := fun _ => True) ?rest)))) fun c => ?_
  case rest =>
    exact Sound.bind (.collect auditRef_sound _) fun _ =>
      Sound.bind auditVaruint_sound fun _ => Sound.bind (auditBounded_sound _ _ _) fun _ =>
      Sound.bind (auditReserve_sound _ _ _) fun _ => Sound.bind (.collect auditRow_sound _) fun _ =>
      Sound.bind (.num _ _) fun _ => Sound.bind (.num _ _) fun _ => Sound.guard (Sound.guard (Sound.pure _))
  · simp only [readRefCount, readRootCount, forall_reads_bind, forall_reads_guard, forall_and, implies_true, and_true]

theorem auditSignatures_follows : AuditScan.Follows auditSignatures readSignatures fun c =>
    ∀ x d, Reads readVaruint c x d → ∀ n d', Reads (bounded x 64 "signatures") d n d' → n * 72 ≤ d'.rest.length := by
  refine AuditScan.Follows.iff (.seq auditVaruint_sound fun _ => .seq (auditBounded_sound _ _ _) fun n =>
    .reserve _ _ (P := fun _ => True) ?rest) fun c => ?_
  case rest => exact Sound.bind (.collect auditSignature_sound _) fun _ => Sound.bind .remaining fun _ => .guard (.pure _)
  · simp only [and_true]

/-- The content and the signature block, as the plain readers have them. -/
def readBody : ObjScan (Content × List Signature) := do
  let content ← readContent zstd limits
  return (content, ← readSignatures)

theorem auditContent_follows : AuditScan.Follows (auditContent zstd limits) (readContent zstd limits) fun c =>
    (∀ n d, Reads (readRootCount limits) c n d → n * 37 ≤ d.rest.length) ∧
      ∀ n d, Reads (readRefCount limits) c n d → min n 1024 * 34 ≤ d.rest.length := by
  refine AuditScan.Follows.iff (.bind (auditHeader_follows limits) (Q := fun _ _ => True) fun header => ?rest) fun c => ?_
  case rest =>
    refine Sound.bind (.take _ _) fun stored => Sound.bind ?_ fun _ => .pure _
    cases decodePayload zstd header.compressed stored header.payloadRawLen with
    | error e => exact .throw
    | ok payload => exact .pure _
  · simp only [implies_true, and_true]

theorem auditBody_follows : AuditScan.Follows (auditBody zstd limits) (readBody zstd limits) fun c =>
    ((∀ n d, Reads (readRootCount limits) c n d → n * 37 ≤ d.rest.length) ∧
      ∀ n d, Reads (readRefCount limits) c n d → min n 1024 * 34 ≤ d.rest.length) ∧
      ∀ n d, Reads (readSignatureCount zstd limits) c n d → n * 72 ≤ d.rest.length := by
  refine AuditScan.Follows.iff (.bind (auditContent_follows zstd limits) fun content =>
    .bind auditSignatures_follows (Q := fun _ _ => True) fun signatures => ?rest) fun c => ?_
  case rest => exact Sound.pure _
  · simp only [readSignatureCount, forall_reads_bind, implies_true, and_true]

end Room

section Open
variable (zstd : Zstd) (limits : BundleLimits) (hash : Bytes → ChunkHash) (raw : Bytes)

/-- The file passes every check ahead of its content. -/
structure Framed : Prop where
  long : ¬raw.length < bundleMagic.length + footerLen
  starts : ¬raw.take 8 ≠ bundleMagic
  ends : ¬(footerOf raw).drop (footerLen - 8) ≠ bundleMagic
  whole : ¬(hash (raw.take (raw.length - 40))).1 ≠ ((footerOf raw).drop 40).take 32
  within : ¬contentLenOf raw > (bodyOf raw).length
  signed : ¬(hash (signedRegion raw)).1 ≠ contentChecksumOf raw

/-- As far as the file is read, the roots, the references and the signatures it says it has
would fit in the bytes that follow. -/
structure Roomy : Prop where
  roots : Framed hash raw → ∀ n d, AuditScan.Reads (readRootCount limits) ⟨8, (bodyOf raw).drop 8⟩ n d →
    n * 37 ≤ d.rest.length
  refs : Framed hash raw → ∀ n d, AuditScan.Reads (readRefCount limits) ⟨8, (bodyOf raw).drop 8⟩ n d →
    min n 1024 * 34 ≤ d.rest.length
  signatures : Framed hash raw → ∀ n d, AuditScan.Reads (readSignatureCount zstd limits) ⟨8, (bodyOf raw).drop 8⟩ n d →
    n * 72 ≤ d.rest.length

variable {zstd limits hash raw}

/-- The slices of a file that is long enough are all in range. -/
theorem auditOpen_eq : auditOpen zstd limits hash raw =
    if raw.length < bundleMagic.length + footerLen then .error (.truncated "bundle")
    else if raw.take 8 ≠ bundleMagic then .error (.corrupt "this file does not start like a bundle")
    else if (footerOf raw).drop (footerLen - 8) ≠ bundleMagic then
      .error (.corrupt "bundle does not end where a bundle ends; it is truncated or damaged")
    else if (hash (raw.take (raw.length - 40))).1 ≠ ((footerOf raw).drop 40).take 32 then
      .error (.corrupt "bundle checksum does not match its contents")
    else if contentLenOf raw > (bodyOf raw).length then
      .error (.corrupt "bundle says its signed region runs past its own end")
    else if (hash (signedRegion raw)).1 ≠ contentChecksumOf raw then
      .error (.corrupt "bundle content checksum does not match what the signatures cover")
    else auditBody zstd limits ⟨8, (bodyOf raw).drop 8⟩ >>= fun x => pure ⟨x.1.1, x.1.2, contentChecksumOf raw⟩ := by
  unfold auditOpen
  by_cases short : raw.length < bundleMagic.length + footerLen
  · rw [if_pos short, if_pos short]
  have long : 8 + 80 ≤ raw.length := Nat.not_lt.mp short
  have body : (bodyOf raw).length = raw.length - footerLen := List.length_take_of_le (Nat.sub_le _ _)
  have footer : (footerOf raw).length = 80 := by
    rw [footerOf, List.length_drop]
    change raw.length - (raw.length - 80) = 80
    omega
  rw [if_neg short, if_neg short, slice_prefix (by omega), pure_bind]
  by_cases starts : raw.take 8 ≠ bundleMagic
  · rw [if_pos starts, if_pos starts]
  rw [if_neg starts, if_neg starts, sub_ok (show footerLen ≤ raw.length by change 80 ≤ raw.length; omega),
    pure_bind, slice_prefix (Nat.sub_le _ _), pure_bind, slice_suffix (Nat.sub_le _ _),
    pure_bind]
  change (Audit.slice (footerOf raw) (footerLen - 8) (footerOf raw).length >>= _) = _
  rw [slice_suffix (by rw [footer]; decide), pure_bind]
  by_cases ends : (footerOf raw).drop (footerLen - 8) ≠ bundleMagic
  · rw [if_pos ends, if_pos ends]
  rw [if_neg ends, if_neg ends, sub_ok (by omega), pure_bind, slice_prefix (Nat.sub_le _ _),
    pure_bind]
  change (Audit.slice (footerOf raw) 40 72 >>= _) = _
  rw [slice_ok (by decide) (by rw [footer]; decide), pure_bind]
  by_cases whole : (hash (raw.take (raw.length - 40))).1 ≠ ((footerOf raw).drop 40).take 32
  · rw [if_pos whole, if_pos whole]
  rw [if_neg whole, if_neg whole]
  change (Audit.slice (footerOf raw) 0 8 >>= _) = _
  rw [ slice_prefix (by rw [footer]; decide), pure_bind]
  change (Audit.slice (footerOf raw) 8 40 >>= _) = _
  rw [slice_ok (by decide) (by rw [footer]; decide), pure_bind]
  by_cases within : contentLenOf raw > (bodyOf raw).length
  · rw [if_pos within]
    exact if_pos within
  rw [if_neg within]
  refine (if_neg within).trans ?_
  change (Audit.slice (bodyOf raw) 0 (contentLenOf raw) >>= _) = _
  rw [ slice_prefix (Nat.not_lt.mp within), pure_bind]
  by_cases signed : (hash (signedRegion raw)).1 ≠ contentChecksumOf raw
  · rw [if_pos signed]
    exact if_pos signed
  rw [if_neg signed]
  refine (if_neg signed).trans ?_
  change (Audit.slice (bodyOf raw) 8 (bodyOf raw).length >>= _) = _
  rw [slice_suffix (by rw [body]; change 8 ≤ raw.length - 80; omega), pure_bind]
  rfl

theorem auditOpen_follows : (auditOpen zstd limits hash raw).Follows (openBytes zstd limits hash raw) (Roomy zstd limits hash raw) := by
  rw [auditOpen_eq]
  have body := auditBody_follows zstd limits ⟨8, (bodyOf raw).drop 8⟩
  have opened := body.bind (f := fun x => (pure ⟨x.1.1, x.1.2, contentChecksumOf raw⟩ : Audit ObjectError OpenBundle))
    (g := fun x => .ok ⟨x.1.1, x.1.2, contentChecksumOf raw⟩) (Q := fun _ => True) fun x _ => .pure _
  refine .iff (.guard fun long => .guard fun starts => .guard fun ends => .guard fun whole => .guard fun within =>
    .guard fun signed => Eq.mp (congrArg (Audit.Follows _ · _) ?_) opened) ?_
  · rw [readBody, Scan.bind_apply]
    generalize readContent zstd limits () ⟨8, (bodyOf raw).drop 8⟩ = content
    obtain ⟨e | ⟨content, c⟩, ⟨⟩⟩ := content
    · rfl
    · dsimp only
      rw [Scan.bind_apply]
      generalize readSignatures () c = signatures
      obtain ⟨e | ⟨signatures, d⟩, ⟨⟩⟩ := signatures
      · rfl
      · rfl
  constructor
  · intro h
    exact ⟨fun framed => (h framed.long framed.starts framed.ends framed.whole framed.within framed.signed).1.1.1,
      fun framed => (h framed.long framed.starts framed.ends framed.whole framed.within framed.signed).1.1.2,
      fun framed => (h framed.long framed.starts framed.ends framed.whole framed.within framed.signed).1.2⟩
  · intro roomy long starts ends whole within signed
    have framed : Framed hash raw := ⟨long, starts, ends, whole, within, signed⟩
    exact ⟨⟨⟨roomy.roots framed, roomy.refs framed⟩, roomy.signatures framed⟩, fun _ _ => trivial⟩

end Open

section Calls
variable (zstd : Zstd) (limits : BundleLimits) (hash : Bytes → ChunkHash)

def auditDependencies : (count : Nat) → (previous : Option ObjectId) → AuditScan ObjectError (List ObjectId)
  | 0, _ => pure []
  | count + 1, previous => do
      let id ← auditIdAs "dependency algorithm" "dependency digest"
      let ascends := match previous with
        | some prev => idLt prev id
        | none => true
      if ascends then return id :: (← auditDependencies count (some id))
      else AuditScan.throw .dependenciesNotCanonical

def auditEnvelope (kind : ObjectKind) (limits : DecodeLimits) : AuditScan ObjectError ObjectEnvelope := do
  let version ← AuditScan.num (.truncated "format_version") 2
  if version ≠ 1 then AuditScan.throw (.unsupportedFormat version) else
  let tag ← AuditScan.num (.truncated "kind") 4
  let found ← ofOption (.unknownKind tag) (ObjectKind.fromTag tag)
  if found ≠ kind then AuditScan.throw (.kindMismatch kind found) else
  let count ← auditVaruint
  if count > limits.maxDependencies then
    AuditScan.throw (.tooManyDependencies count limits.maxDependencies) else
  auditReserve (.truncated "dependencies") count 33
  let dependencies ← auditDependencies count none
  let bodyLen ← auditVaruint
  if bodyLen > limits.maxBodyLen then AuditScan.throw (.tooLarge "body" bodyLen limits.maxBodyLen) else
  let left ← remaining
  if bodyLen ≠ left then AuditScan.throw .trailingBytes else
  return ⟨version, kind, dependencies, ← AuditScan.take .trailingBytes bodyLen⟩

def auditDecode (kind : ObjectKind) (bytes : Bytes) (limits : DecodeLimits) : Audit ObjectError ObjectEnvelope :=
  if bytes.length > limits.maxLenFor kind then .error (.tooLarge "object" bytes.length (limits.maxLenFor kind))
  else if kind.isPayload then pure ⟨1, kind, [], bytes⟩
  else auditEnvelope kind limits ⟨0, bytes⟩ >>= fun x => pure x.1

def auditRows (payload : Bytes) : List Row → List Filed → Audit ObjectError (List Filed)
  | [], contents => pure contents
  | row :: rows, contents =>
      if row.offset + row.length ≥ 2 ^ 64 then .error (.corrupt "bundle table entry overflows")
      else if row.offset + row.length > payload.length then
        .error (.corrupt ("bundle table points object " ++ toHex row.id.digest ++ " past the end of the payload"))
      else do
        let slice ← Audit.slice payload row.offset (row.offset + row.length)
        let actual := ObjectId.compute hash row.kind slice
        if actual ≠ row.id then .error (.idMismatch (toHex row.id.digest) (toHex actual.digest))
        else match contents.find? fun f => f.id = row.id with
          | some f =>
              if f.kind ≠ row.kind ∨ f.bytes ≠ slice then
                .error (.corrupt ("bundle contains two different objects under " ++ toHex row.id.digest))
              else auditRows payload rows contents
          | none => auditRows payload rows (contents ++ [⟨row.id, row.kind, slice⟩])

def auditDangling (known : List ObjectId) : List Filed → Audit ObjectError (List ObjectId)
  | [] => pure []
  | f :: contents => do
      let envelope ← (auditDecode f.kind f.bytes limits.objects).mapError fun e =>
        .corrupt ("object " ++ toHex f.id.digest ++ " in bundle: " ++ e.display)
      let more ← auditDangling known contents
      return envelope.dependencies.filter (· ∉ known) ++ more

def auditVerifyOpen (content : Content) : Audit ObjectError BundleVerification := do
  let contents ← auditRows hash content.payload content.table []
  let known := contents.map Filed.id ++ content.prerequisites
  let dangling ← auditDangling limits known (contents.insertionSort fun a b => idLe a.id b.id)
  return {
    content
    objectsVerified := contents.length
    bytesVerified := (contents.map fun f => f.bytes.length).sum
    unsatisfiedRoots := (content.roots.map Prod.snd).filter (· ∉ known)
    dangling := sortIds dangling }

def auditInspect (raw : Bytes) : Audit ObjectError Header := do
  let bundle ← auditOpen zstd limits hash raw
  return bundle.content.toHeader

def auditVerify (raw : Bytes) : Audit ObjectError BundleVerification := do
  let bundle ← auditOpen zstd limits hash raw
  auditVerifyOpen limits hash bundle.content

def auditAppend (raw : Bytes) (signature : WireSignature) : Audit ObjectError Bytes := do
  let opened ← auditOpen zstd limits hash raw
  let footerAt ← Audit.sub raw.length footerLen
  let contentLen ← Audit.slice raw footerAt (footerAt + 8)
  let body ← Audit.slice raw 0 (ofLe contentLen)
  if opened.signatures.any (fun s => s.keyId = signature.1.keyId) then .error keyTaken
  else
    let signatures := opened.signatures ++ [signature.1]
    return sealBundle hash (body ++ writeList writeSignature signatures) (ofLe contentLen) opened.contentChecksum

/-- The first object of a table under an id. -/
def readUnder (payload : Bytes) (id : ObjectId) : List Row → Audit ObjectError (Option StoredObject)
  | [] => pure none
  | row :: rows =>
      if row.id ≠ id then readUnder payload id rows else do
        let stop ← Audit.add row.offset row.length
        let bytes ← Audit.slice payload row.offset stop
        let actual := ObjectId.compute hash row.kind bytes
        if actual ≠ id then .error (.idMismatch (toHex id.digest) (toHex actual.digest))
        else return some ⟨id, row.kind, bytes⟩

/-- Read one object out of a bundle without importing it. -/
def readFromBundle (raw : Bytes) (id : ObjectId) : Audit ObjectError (Option StoredObject) := do
  let bundle ← auditOpen zstd limits hash raw
  readUnder hash bundle.content.payload id bundle.content.table

/-- A store to import into, whatever it says of an object and of a put. -/
structure ImportStore (σ : Type) where
  hasObject : σ → ObjectId → Except ObjectError (Bool × σ)
  putObject : σ → ObjectKind → Bytes → Except ObjectError σ

section Import
variable {σ : Type} (store : ImportStore σ)

def auditMissing : List ObjectId → σ → Audit ObjectError (List ObjectId × σ)
  | [], s => pure ([], s)
  | id :: ids, s => do
      let (there, s) ← ofExcept (store.hasObject s id)
      let (more, s) ← auditMissing ids s
      return (if there then more else id :: more, s)

def auditPut (payload : Bytes) : List Row → ImportReport → σ → Audit ObjectError (ImportReport × σ)
  | [], report, s => pure (report, s)
  | row :: rows, report, s => do
      let stop ← Audit.add row.offset row.length
      let slice ← Audit.slice payload row.offset stop
      let (there, s) ← ofExcept (store.hasObject s row.id)
      if there then
        auditPut payload rows { report with objectsAlreadyPresent := report.objectsAlreadyPresent + 1 } s
      else do
        let s ← ofExcept (store.putObject s row.kind slice)
        auditPut payload rows
          { report with objectsAdded := report.objectsAdded + 1, bytesAdded := report.bytesAdded + row.length } s

def auditImport (raw : Bytes) (s : σ) : Audit ObjectError (ImportReport × σ) := do
  let bundle ← auditOpen zstd limits hash raw
  let verification ← auditVerifyOpen limits hash bundle.content
  if verification.dangling ≠ [] then
    .error (.corrupt ("bundle references " ++ toString verification.dangling.length ++
      " objects it neither contains nor declares as prerequisites"))
  else do
    let (missingPrerequisites, s) ← auditMissing store bundle.content.prerequisites s
    auditPut store bundle.content.payload bundle.content.table ⟨0, 0, 0, missingPrerequisites, bundle.content.refs⟩ s

end Import

/-- Nothing that reads the file ends the program, or sets room aside for what cannot be there. -/
structure Unharmed (raw : Bytes) (id : ObjectId) : Prop where
  inspect : (auditInspect zstd limits hash raw).Safe
  verify : (auditVerify zstd limits hash raw).Safe
  append : ∀ signature, (auditAppend zstd limits hash raw signature).Safe
  read : (readFromBundle zstd limits hash raw id).Safe
  import_ : ∀ {σ : Type} (store : ImportStore σ) (s : σ), (auditImport zstd limits hash store raw s).Safe

/-- If the file opens, the first row under the id lies in the payload. -/
def Sliceable (raw : Bytes) (id : ObjectId) : Prop :=
  ∀ a, openBytes zstd limits hash raw = .ok a → ∀ row, a.content.table.find? (fun row => row.id = id) = some row →
    row.offset + row.length < 2 ^ 64 ∧ row.offset + row.length ≤ a.content.payload.length

end Calls
section Returns
variable {zstd : Zstd} {limits : BundleLimits} {hash : Bytes → ChunkHash} {raw : Bytes} {id : ObjectId}
open AuditScan

theorem auditDependencies_sound (count : Nat) (previous : Option ObjectId) :
    Sound (auditDependencies count previous) (readDependencies count previous) := by
  induction count generalizing previous with
  | zero => exact .pure []
  | succ count ih => exact .bind (auditIdAs_sound _ _) fun id => .ite (.bind (ih _) fun _ => .pure _) .throw

/-- A check of what is left, with the room set aside behind it. -/
theorem auditReserve_then {α : Type} {m : AuditScan ObjectError α} {n : ObjScan α} (e : ObjectError) (count item : Nat)
    (h : Sound m n) : Sound (auditReserve e count item >>= fun _ => m)
      (Scan.remaining >>= fun left => if count * item > left then Scan.throw e else n) := by
  have same : (Scan.remaining >>= fun left => if count * item > left then Scan.throw e else n) =
      (atLeast e (count * item) >>= fun _ => n) := by
    funext u c
    have looked : atLeast e (count * item) u c =
        (if count * item > c.rest.length then (Scan.throw e : ObjScan Unit) else pure ()) u c := rfl
    rw [Scan.bind_apply (atLeast e (count * item)), looked]
    change (if count * item > c.rest.length then Scan.throw e else n) u c = _
    by_cases past : count * item > c.rest.length
    · rw [if_pos past, if_pos past]
      rfl
    · rw [if_neg past, if_neg past]
      rfl
  rw [same]
  exact .bind (auditReserve_sound e count item) fun _ => h

theorem auditEnvelope_sound (kind : ObjectKind) (limits : DecodeLimits) :
    Sound (auditEnvelope kind limits) (readEnvelope kind limits) :=
  .bind (.num _ _) fun _ => .guard <| .bind (.num _ _) fun _ => .bind (.ofOption _ _) fun _ => .guard <|
    .bind auditVaruint_sound fun _ => .guard <| auditReserve_then _ _ _ <|
    .bind (auditDependencies_sound _ _) fun _ => .bind auditVaruint_sound fun _ => .guard <|
    .bind .remaining fun _ => .guard <| .bind (.take _ _) fun _ => .pure _

theorem auditDecode_follows (kind : ObjectKind) (bytes : Bytes) (limits : DecodeLimits) :
    (auditDecode kind bytes limits).Follows (decodeEnvelope kind bytes limits) True := by
  unfold auditDecode decodeEnvelope
  refine .iff (.guard fun _ => .ite (fun _ => .pure _) (R := True) fun _ => ?_) (by simp)
  have read := (auditEnvelope_sound kind limits ⟨0, bytes⟩).bind (f := fun x => (pure x.1 : Audit ObjectError ObjectEnvelope))
    (g := fun x => .ok x.1) (Q := fun _ => True) fun x _ => .pure x.1
  have same : ((readEnvelope kind limits () ⟨0, bytes⟩).1 >>= fun x => Except.ok x.1) =
      (readEnvelope kind limits () ⟨0, bytes⟩).1.map Prod.fst := by
    cases (readEnvelope kind limits () ⟨0, bytes⟩).1 with
    | error e => rfl
    | ok x => rfl
  rw [same] at read
  exact read.iff (by simp)

theorem auditRows_follows (payload : Bytes) (rows : List Row) (contents : List Filed) :
    (auditRows hash payload rows contents).Follows (verifyRows hash payload rows contents) True := by
  induction rows generalizing contents with
  | nil => exact .pure contents
  | cons row rows ih =>
      unfold auditRows verifyRows
      refine .iff (.guard fun word => .guard (P := True) fun within => ?_) (by simp)
      have slice : (Audit.slice payload row.offset (row.offset + row.length) : Audit ObjectError Bytes) =
          pure (sliceOf payload row) := by
        rw [slice_ok (Nat.le_add_right ..) (Nat.not_lt.mp within), Nat.add_sub_cancel_left]
        rfl
      rw [slice, pure_bind]
      refine .iff (.guard (P := True) fun named => ?_) (by simp)
      cases contents.find? fun f => f.id = row.id with
      | none => exact ih _
      | some f => exact .iff (.guard fun _ => ih _) (by simp)

theorem auditDangling_follows (known : List ObjectId) (contents : List Filed) :
    (auditDangling limits known contents).Follows (danglingOf limits known contents) True := by
  induction contents with
  | nil => exact .pure []
  | cons f contents ih =>
      have same : danglingOf limits known (f :: contents) = ((decodeEnvelope f.kind f.bytes limits.objects).mapError fun e =>
          ObjectError.corrupt ("object " ++ toHex f.id.digest ++ " in bundle: " ++ e.display)) >>= fun envelope =>
            danglingOf limits known contents >>= fun more => .ok (envelope.dependencies.filter (· ∉ known) ++ more) := by
        rw [danglingOf]
        cases decodeEnvelope f.kind f.bytes limits.objects with
        | error e => rfl
        | ok envelope =>
            cases danglingOf limits known contents with
            | error e => rfl
            | ok more => rfl
      rw [same, auditDangling]
      exact .iff (.bind ((auditDecode_follows _ _ _).mapError _) fun envelope _ =>
        .bind ih fun more _ => .pure _) (by simp)

theorem auditVerifyOpen_follows (content : Content) :
    (auditVerifyOpen limits hash content).Follows (verifyOpen hash limits content) True := by
  have same : verifyOpen hash limits content = verifyRows hash content.payload content.table [] >>= fun contents =>
      danglingOf limits (contents.map Filed.id ++ content.prerequisites)
        (contents.insertionSort fun a b => idLe a.id b.id) >>= fun dangling => .ok {
          content
          objectsVerified := contents.length
          bytesVerified := (contents.map fun f => f.bytes.length).sum
          unsatisfiedRoots := (content.roots.map Prod.snd).filter (· ∉ contents.map Filed.id ++ content.prerequisites)
          dangling := sortIds dangling } := by
    rw [verifyOpen]
    cases verifyRows hash content.payload content.table [] with
    | error e => rfl
    | ok contents =>
        change _ = danglingOf limits (contents.map Filed.id ++ content.prerequisites)
          (contents.insertionSort fun a b => idLe a.id b.id) >>= _
        dsimp only
        cases danglingOf limits (contents.map Filed.id ++ content.prerequisites)
          (contents.insertionSort fun a b => idLe a.id b.id) with
        | error e => rfl
        | ok dangling => rfl
  rw [same]
  exact .iff (.bind (auditRows_follows _ _ _) fun contents _ =>
    .bind (auditDangling_follows _ _) fun dangling _ => .pure _) (by simp)

/-- Every row of a table that verifies lies in the payload. -/
theorem verifyRows_within {payload : Bytes} {rows : List Row} {contents all : List Filed}
    (h : verifyRows hash payload rows contents = .ok all) :
    ∀ row ∈ rows, row.offset + row.length < 2 ^ 64 ∧ row.offset + row.length ≤ payload.length := by
  induction rows generalizing contents with
  | nil => simp
  | cons row rows ih =>
      unfold verifyRows at h
      split_ifs at h with word past
      dsimp only at h
      split_ifs at h with named
      have here : row.offset + row.length < 2 ^ 64 ∧ row.offset + row.length ≤ payload.length :=
        ⟨Nat.not_le.mp word, Nat.not_lt.mp past⟩
      split at h
      · split_ifs at h with differ
        exact List.forall_mem_cons.mpr ⟨here, ih h⟩
      · exact List.forall_mem_cons.mpr ⟨here, ih h⟩

theorem verifyOpen_within {content : Content} {verification : BundleVerification}
    (h : verifyOpen hash limits content = .ok verification) :
    ∀ row ∈ content.table, row.offset + row.length < 2 ^ 64 ∧ row.offset + row.length ≤ content.payload.length := by
  unfold verifyOpen at h
  cases found : verifyRows hash content.payload content.table [] with
  | error e =>
      rw [found] at h
      cases h
  | ok contents => exact verifyRows_within found

theorem safe_error {α : Type} (e : ObjectError) : (Audit.error e : Audit ObjectError α).Safe :=
  (Audit.Follows.error e).safe.mpr trivial

theorem safe_pure {α : Type} (a : α) : (pure a : Audit ObjectError α).Safe := (Audit.Follows.pure a).safe.mpr trivial

theorem not_safe_panics {α : Type} : ¬(Audit.panics : Audit ObjectError α).Safe := fun safe => safe.returns rfl

/-- A lookup in a table ends well when the row that is found lies in the payload. -/
theorem readUnder_safe (payload : Bytes) (rows : List Row) : (readUnder hash payload id rows).Safe ↔
    ∀ row, rows.find? (fun row => row.id = id) = some row →
      row.offset + row.length < 2 ^ 64 ∧ row.offset + row.length ≤ payload.length := by
  induction rows with
  | nil => exact iff_of_true (safe_pure none) (by simp)
  | cons row rows ih =>
      unfold readUnder
      by_cases other : row.id ≠ id
      · rw [if_pos other, ih, List.find?_cons_of_neg (by simpa using other)]
      · have same : row.id = id := not_not.mp other
        rw [if_neg other, List.find?_cons_of_pos (by simpa using same)]
        simp only [Option.some.injEq, forall_eq']
        by_cases word : row.offset + row.length < 2 ^ 64
        · rw [add_ok word, pure_bind]
          by_cases within : row.offset + row.length ≤ payload.length
          · rw [slice_ok (Nat.le_add_right ..) within, pure_bind]
            refine iff_of_true ?_ ⟨word, within⟩
            split
            · exact safe_error _
            · exact safe_pure _
          · rw [Audit.slice_panics (Nat.not_le.mp within)]
            exact iff_of_false not_safe_panics fun both => within both.2
        · rw [Audit.add_panics word]
          exact iff_of_false not_safe_panics fun both => word both.1

section Import
variable {σ : Type} {store : ImportStore σ}

theorem auditMissing_safe (ids : List ObjectId) (s : σ) : (auditMissing store ids s).Safe := by
  induction ids generalizing s with
  | nil => exact safe_pure _
  | cons id ids ih =>
      refine (Audit.Follows.ofExcept (store.hasObject s id)).safe_bind.mpr ⟨trivial, fun x _ => ?_⟩
      obtain ⟨there, t⟩ := x
      exact (ih t).bind fun _ _ => safe_pure _

theorem auditPut_safe {payload : Bytes} {rows : List Row}
    (within : ∀ row ∈ rows, row.offset + row.length < 2 ^ 64 ∧ row.offset + row.length ≤ payload.length)
    (report : ImportReport) (s : σ) : (auditPut store payload rows report s).Safe := by
  induction rows generalizing report s with
  | nil => exact safe_pure _
  | cons row rows ih =>
      obtain ⟨word, inside⟩ := within row (.head _)
      have rest := ih fun row mem => within row (.tail _ mem)
      unfold auditPut
      rw [add_ok word, pure_bind, slice_ok (Nat.le_add_right ..) inside, pure_bind]
      refine (Audit.Follows.ofExcept _).safe_bind.mpr ⟨trivial, fun x _ => ?_⟩
      obtain ⟨there, t⟩ := x
      dsimp only
      split
      · exact rest _ _
      · exact (Audit.Follows.ofExcept _).safe_bind.mpr ⟨trivial, fun t _ => rest _ _⟩

end Import

/-- The cut that is made for a new signature is in range. -/
theorem auditAppend_safe {a : OpenBundle} (opened : openBytes zstd limits hash raw = .ok a) (signature : WireSignature) :
    (do
      let footerAt ← Audit.sub raw.length footerLen
      let contentLen ← Audit.slice raw footerAt (footerAt + 8)
      let body ← Audit.slice raw 0 (ofLe contentLen)
      if a.signatures.any (fun s => s.keyId = signature.1.keyId) then .error keyTaken
      else
        let signatures := a.signatures ++ [signature.1]
        return sealBundle hash (body ++ writeList writeSignature signatures) (ofLe contentLen) a.contentChecksum :
      Audit ObjectError Bytes).Safe := by
  have opens := openBytes_ok.mp opened
  have long : 8 + 80 ≤ raw.length := opens.long
  have footer : raw.length - footerLen + 8 ≤ raw.length := by
    change raw.length - 80 + 8 ≤ raw.length
    omega
  have len : ofLe ((raw.drop (raw.length - footerLen)).take (raw.length - footerLen + 8 - (raw.length - footerLen))) =
      contentLenOf raw := by
    rw [Nat.add_sub_cancel_left]
    rfl
  have cut : contentLenOf raw ≤ raw.length := by
    have within := opens.within
    rw [bodyOf, List.length_take] at within
    omega
  rw [sub_ok (show footerLen ≤ raw.length from Nat.le_of_add_left_le long), pure_bind,
    slice_ok (Nat.le_add_right ..) footer, pure_bind, len, slice_prefix cut, pure_bind]
  split
  · exact safe_error _
  · exact safe_pure _

/-- A file does no harm exactly when it has room for what it counts, and the row that is read
out lies in the payload. -/
theorem unharmed_iff : Unharmed zstd limits hash raw id ↔ Roomy zstd limits hash raw ∧ Sliceable zstd limits hash raw id := by
  have opens := @auditOpen_follows zstd limits hash raw
  have read : (readFromBundle zstd limits hash raw id).Safe ↔
      Roomy zstd limits hash raw ∧ Sliceable zstd limits hash raw id :=
    opens.safe_bind.trans (and_congr Iff.rfl (forall₂_congr fun a _ => readUnder_safe _ _))
  constructor
  · intro unharmed
    exact read.mp unharmed.read
  · intro both
    have roomy := both.1
    refine ⟨?_, ?_, ?_, read.mpr both, ?_⟩
    · exact opens.safe_bind.mpr ⟨roomy, fun a _ => safe_pure _⟩
    · exact opens.safe_bind.mpr ⟨roomy, fun a _ => (auditVerifyOpen_follows _).safe.mpr trivial⟩
    · exact fun signature => opens.safe_bind.mpr ⟨roomy, fun a opened => auditAppend_safe opened signature⟩
    · intro σ store s
      refine opens.safe_bind.mpr ⟨roomy, fun a _ => (auditVerifyOpen_follows _).safe_bind.mpr ⟨trivial, fun v verified => ?_⟩⟩
      split
      · exact safe_error _
      · refine (auditMissing_safe _ _).bind fun x _ => ?_
        obtain ⟨missing, t⟩ := x
        exact auditPut_safe (verifyOpen_within verified) _ _

/-- A file whose one row starts behind its empty payload. -/
def looseRowFile : Bytes :=
  sealUnsigned lengthHash (writeHeader { idleHeader 1 with table := [⟨.chunk, leaf, 1, 0⟩] })

/-- It opens, and reading its object out ends the program. -/
theorem readFromBundle_panics : (auditInspect noZstd .default lengthHash looseRowFile).outcome =
    .ok { idleHeader 1 with table := [⟨.chunk, leaf, 1, 0⟩] } ∧
      (readFromBundle noZstd .default lengthHash looseRowFile leaf).outcome = .panics := by
  decide +kernel

end Returns
end Cavs
