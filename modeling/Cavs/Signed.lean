import Cavs.Bundle

/-!
# What a signature on a bundle covers

A signature is over the checksum of as many bytes as the footer says. Where these reach
the end of the payload, no other file with the checksum has another content; the reader
does not ask that they do.
-/
namespace Cavs
open FileProg (Bytes)
open ByteScan

section Composed
variable {zstd : Zstd} {limits : BundleLimits}

theorem composed_readVaruintFrom (left i value : Nat) : Composed (readVaruintFrom left i value) := by
  induction left generalizing i value with
  | zero => exact .bind .take fun _ => .ite .throw (.ite .throw (.pure _))
  | succ left ih => exact .bind .take fun _ => .ite .throw (.ite (.pure _) (ih _ _))

theorem composed_readVaruint : Composed readVaruint := composed_readVaruintFrom 9 0 0

theorem composed_readDigest (what : String) : Composed (readDigest what) := by
  refine .bind .take fun _ => ?_
  split
  · exact .pure _
  · exact .throw

theorem composed_readIdAs (algorithm digest : String) : Composed (readIdAs algorithm digest) :=
  .bind .take fun _ => .bind (.ofOption _) fun _ => .bind (composed_readDigest _) fun _ => .pure _

theorem composed_readId : Composed readId := composed_readIdAs _ _

theorem composed_bounded (value max : Nat) (what : String) : Composed (bounded value max what) :=
  .ite .throw (.pure _)

theorem composed_atLeast (e : ObjectError) (n : Nat) : Composed (atLeast e n) := .enough

theorem composed_readKind (what : String) : Composed (readKind what) := .bind .num fun _ => .ofOption _

theorem composed_readBundleRoot : Composed readBundleRoot :=
  .bind (composed_readKind _) fun _ => .bind composed_readId fun _ => .pure _

theorem composed_readRef : Composed readRef :=
  .bind composed_readVaruint fun _ => .ite .throw
    (.bind .take fun _ => .bind (.ofOption _) fun _ => .bind composed_readId fun _ => .pure _)

theorem composed_readRow : Composed readRow :=
  .bind (composed_readKind _) fun _ => .bind composed_readId fun _ => .bind composed_readVaruint fun _ =>
    .bind composed_readVaruint fun _ => .pure _

theorem composed_readHeader : Composed (readHeader limits) :=
  .bind .num fun _ => .ite .throw <| .bind .num fun _ => .ite .throw <| .bind .num fun _ =>
    .bind composed_readVaruint fun _ => .bind (composed_bounded _ _ _) fun _ => .bind (.collect composed_readBundleRoot _) fun _ =>
    .bind composed_readVaruint fun _ => .bind (composed_bounded _ _ _) fun _ => .bind (composed_atLeast _ _) fun _ =>
    .bind (.collect composed_readId _) fun _ =>
    .bind composed_readVaruint fun _ => .bind (composed_bounded _ _ _) fun _ => .bind (.collect composed_readRef _) fun _ =>
    .bind composed_readVaruint fun _ => .bind (composed_bounded _ _ _) fun _ => .bind (composed_atLeast _ _) fun _ =>
    .bind (.collect composed_readRow _) fun _ =>
    .bind .num fun _ => .bind .num fun _ => .ite .throw (.ite .throw (.pure _))

theorem composed_ofExcept {α : Type} (r : Except ObjectError α) : Composed (Scan.ofExcept r) := by
  cases r with
  | error e => exact .throw
  | ok a => exact .pure a

theorem composed_readContent : Composed (readContent zstd limits) :=
  .bind composed_readHeader fun _ => .bind .take fun _ => .bind (composed_ofExcept _) fun _ => .pure _

end Composed

section Open
variable {zstd : Zstd} {limits : BundleLimits} {hash : Bytes → ChunkHash} {raw body : Bytes} {a : OpenBundle}

/-- What the reader saw of a file it opened. -/
structure Opens (zstd : Zstd) (limits : BundleLimits) (hash : Bytes → ChunkHash) (raw : Bytes)
    (a : OpenBundle) : Prop where
  long : bundleMagic.length + footerLen ≤ raw.length
  starts : raw.take 8 = bundleMagic
  ends : (footerOf raw).drop (footerLen - 8) = bundleMagic
  whole : (hash (raw.take (raw.length - 40))).1 = ((footerOf raw).drop 40).take 32
  within : contentLenOf raw ≤ (bodyOf raw).length
  signed : (hash (signedRegion raw)).1 = contentChecksumOf raw
  checksum : a.contentChecksum = contentChecksumOf raw
  reads : ∃ c d, readContent zstd limits () ⟨8, (bodyOf raw).drop 8⟩ = (.ok (a.content, c), ()) ∧
    readSignatures () c = (.ok (a.signatures, d), ())

theorem openBytes_ok : openBytes zstd limits hash raw = .ok a ↔ Opens zstd limits hash raw a := by
  obtain ⟨content, signatures, checksum⟩ := a
  constructor
  · intro h
    unfold openBytes at h
    split_ifs at h with long starts ends whole within signed
    split at h
    · cases h
    rename_i content' c read
    split at h
    · cases h
    rename_i signatures' d block
    cases h
    exact ⟨Nat.le_of_not_lt long, not_not.mp starts, not_not.mp ends, not_not.mp whole, Nat.le_of_not_lt within,
      not_not.mp signed, rfl, c, d, Prod.ext read rfl, Prod.ext block rfl⟩
  · rintro ⟨long, starts, ends, whole, within, signed, same, c, d, read, block⟩
    dsimp only at same read block
    subst same
    unfold openBytes
    rw [if_neg (Nat.not_lt_of_le long), if_neg (not_not.mpr starts), if_neg (not_not.mpr ends),
      if_neg (not_not.mpr whole), if_neg (Nat.not_lt_of_le within), if_neg (not_not.mpr signed), read]
    dsimp only
    rw [block]

/-- The parts of a file that was sealed. -/
theorem sealBundle_parts (n : Nat) {sum : Bytes} (length : sum.length = 32) :
    let raw := sealBundle hash body n sum
    raw.length = body.length + footerLen ∧ bodyOf raw = body ∧
      footerOf raw = le 8 n ++ (sum ++ ((hash (body ++ (le 8 n ++ sum))).1 ++ bundleMagic)) ∧
      raw.take (raw.length - 40) = body ++ (le 8 n ++ sum) := by
  intro raw
  have hashed : (hash (body ++ (le 8 n ++ sum))).1.length = 32 := (hash _).2
  have flat : raw = body ++ (le 8 n ++ (sum ++ ((hash (body ++ (le 8 n ++ sum))).1 ++ bundleMagic))) := by
    simp only [raw, sealBundle, List.append_assoc]
  have size : raw.length = body.length + footerLen := by
    rw [flat]
    simp [length, hashed, footerLen, bundleMagic]
  have front : raw.length - footerLen = body.length := by omega
  refine ⟨size, ?_, ?_, ?_⟩
  · rw [bodyOf, front, flat, List.take_left]
  · rw [footerOf, front, flat, List.drop_left]
  · have split : raw = (body ++ (le 8 n ++ sum)) ++ ((hash (body ++ (le 8 n ++ sum))).1 ++ bundleMagic) := rfl
    have cut : raw.length - 40 = (body ++ (le 8 n ++ sum)).length := by
      rw [size]
      simp [length, footerLen]
    rw [cut, split, List.take_left]

theorem sealBundle_contentLen {n : Nat} {sum : Bytes} (length : sum.length = 32) (small : n < 2 ^ 64) :
    contentLenOf (sealBundle hash body n sum) = n := by
  rw [contentLenOf, (sealBundle_parts n length).2.2.1, List.take_left' (le_length ..)]
  exact ofLe_le small

theorem sealBundle_region {n : Nat} {sum : Bytes} (length : sum.length = 32) (small : n < 2 ^ 64) :
    signedRegion (sealBundle hash body n sum) = body.take n := by
  rw [signedRegion, sealBundle_contentLen length small, (sealBundle_parts n length).2.1]

/-- A body that is read well is opened when it is sealed. -/
theorem opens_sealBundle {n : Nat} {sum : Bytes} {content : Content} {signatures : List Signature} {c d : Cursor}
    (starts : body.take 8 = bundleMagic) (within : n ≤ body.length) (small : n < 2 ^ 64)
    (signed : (hash (body.take n)).1 = sum)
    (read : readContent zstd limits () ⟨8, body.drop 8⟩ = (.ok (content, c), ()))
    (block : readSignatures () c = (.ok (signatures, d), ())) :
    Opens zstd limits hash (sealBundle hash body n sum) ⟨content, signatures, sum⟩ := by
  have length : sum.length = 32 := signed ▸ (hash _).2
  have hashed : (hash (body ++ (le 8 n ++ sum))).1.length = 32 := (hash _).2
  obtain ⟨size, body_, footer, front⟩ := @sealBundle_parts hash body n _ length
  have eight : 8 ≤ body.length := by
    have := congrArg List.length starts
    rw [List.length_take] at this
    change min 8 body.length = 8 at this
    omega
  have contentLen := @sealBundle_contentLen hash body _ _ length small
  refine ⟨?_, ?_, ?_, ?_, ?_, ?_, ?_, c, d, ?_, block⟩
  · rw [size]
    exact Nat.add_le_add_right eight _
  · have : (sealBundle hash body n sum).take 8 = ((sealBundle hash body n sum).take body.length).take 8 := by
      rw [List.take_take, min_eq_left eight]
    rw [this, ← starts]
    congr 1
    have cut : (sealBundle hash body n sum).length - footerLen = body.length := by omega
    rw [← cut]
    exact body_
  · rw [footer, ← List.append_assoc, ← List.append_assoc]
    exact List.drop_left' (by simp [length, hashed, footerLen])
  · rw [front, footer]
    generalize hash (body ++ (le 8 n ++ sum)) = x at hashed
    rw [← List.append_assoc (le 8 n), List.drop_left' (by simp [length]), List.take_left' hashed]
  · rw [contentLen, body_]
    exact within
  · rw [signedRegion, contentLen, body_, contentChecksumOf, footer, List.drop_left' (le_length ..),
      List.take_left' length]
    exact signed
  · rw [contentChecksumOf, footer, List.drop_left' (le_length ..), List.take_left' length]
  · rw [body_]
    exact read

end Open

section Covers
variable {zstd : Zstd} {limits : BundleLimits} {hash : Bytes → ChunkHash} {raw raw' : Bytes} {a b : OpenBundle}

/-- Where the content of a file ends, going by what is read. -/
def contentEnd (zstd : Zstd) (limits : BundleLimits) (raw : Bytes) : Option Nat :=
  match (readContent zstd limits () ⟨8, (bodyOf raw).drop 8⟩).1 with
  | .ok (_, c) => some c.pos
  | .error _ => none

/-- The signed region of a file reaches the end of its content. -/
def SignedWhole (zstd : Zstd) (limits : BundleLimits) (raw : Bytes) : Prop :=
  ∃ n, contentEnd zstd limits raw = some n ∧ n ≤ contentLenOf raw

def SameContent (a b : Content) : Prop :=
  a.roots = b.roots ∧ a.prerequisites = b.prerequisites ∧ a.refs = b.refs ∧ a.createdAt = b.createdAt ∧
    a.table = b.table ∧ a.payload = b.payload

/-- Every file that opens with the checksum of this one has its content, where the hash tells
the two signed regions apart. -/
def SignatureCovers (zstd : Zstd) (limits : BundleLimits) (hash : Bytes → ChunkHash) (raw : Bytes)
    (a : OpenBundle) : Prop :=
  ∀ raw' b, openBytes zstd limits hash raw' = .ok b → b.contentChecksum = a.contentChecksum →
    (hash (signedRegion raw') = hash (signedRegion raw) → signedRegion raw' = signedRegion raw) →
    SameContent b.content a.content

theorem contentEnd_of_read {content : Content} {c : Cursor}
    (read : readContent zstd limits () ⟨8, (bodyOf raw).drop 8⟩ = (.ok (content, c), ())) :
    contentEnd zstd limits raw = some c.pos := by
  unfold contentEnd
  rw [read]

theorem Opens.region_length (h : Opens zstd limits hash raw a) : (signedRegion raw).length = contentLenOf raw :=
  List.length_take_of_le h.within

/-- A file with the signed region of one that is signed whole has its content. -/
theorem content_of_region (h : Opens zstd limits hash raw a) (h' : Opens zstd limits hash raw' b)
    (whole : SignedWhole zstd limits raw) (same : signedRegion raw' = signedRegion raw) :
    b.content = a.content := by
  obtain ⟨c, d, read, -⟩ := h.reads
  obtain ⟨c', d', read', -⟩ := h'.reads
  obtain ⟨n, ends, within⟩ := whole
  have at_ : c.pos = n := Option.some.inj ((contentEnd_of_read read).symm.trans ends)
  have long : contentLenOf raw' = contentLenOf raw := by
    rw [← h'.region_length, ← h.region_length, same]
  have beginning : ((bodyOf raw).drop 8).take (contentLenOf raw - 8) =
      ((bodyOf raw').drop 8).take (contentLenOf raw - 8) := by
    calc ((bodyOf raw).drop 8).take (contentLenOf raw - 8)
        = (signedRegion raw).drop 8 := List.drop_take.symm
      _ = (signedRegion raw').drop 8 := by rw [same]
      _ = ((bodyOf raw').drop 8).take (contentLenOf raw' - 8) := List.drop_take
      _ = _ := by rw [long]
  exact (composed_readContent.decides.agree read read' (by omega) beginning).symm

/-- The last byte of an uncompressed payload can be another one. -/
theorem readContent_other {body : Bytes} {content : Content} {c : Cursor}
    (read : readContent zstd limits () ⟨8, body⟩ = (.ok (content, c), ()))
    (plain : content.compressed = false) (some : content.payload ≠ []) :
    ∃ front x, body = front ++ x :: c.rest ∧ c.pos = 8 + front.length + 1 ∧
      ∃ content', content'.payload ≠ content.payload ∧
        readContent zstd limits () ⟨8, front ++ (x + 1) :: c.rest⟩ = (.ok (content', c), ()) := by
  obtain ⟨header, c₁, ⟨⟩, head, rest⟩ := ok_of_bind read
  obtain ⟨stored, c₂, ⟨⟩, taken, rest⟩ := ok_of_bind rest
  obtain ⟨payload, c₃, ⟨⟩, decoded, rest⟩ := ok_of_bind rest
  cases rest
  dsimp only at plain some
  obtain ⟨split, length, pos, -⟩ := ok_of_take taken
  rw [plain] at decoded
  -- Stored as it is, the payload is what was taken.
  have same : payload = stored ∧ c = c₂ ∧ header.payloadRawLen = stored.length := by
    unfold decodePayload at decoded
    rw [if_neg (by simp)] at decoded
    split at decoded
    · cases decoded
    · rename_i agree
      cases decoded
      exact ⟨rfl, rfl, (not_not.mp agree).symm⟩
  obtain ⟨rfl, rfl, rawLen⟩ := same
  obtain ⟨pre, x, rfl⟩ : ∃ pre x, payload = pre ++ [x] := by
    rcases List.eq_nil_or_concat payload with none | ⟨pre, x, last⟩
    · exact absurd none some
    · exact ⟨pre, x, last.trans (List.concat_eq_append ..)⟩
  obtain ⟨b, splitBody, posHead, -, accepts⟩ := composed_readHeader.decides _ _ _ _ _ _ head
  refine ⟨b ++ pre, x, ?_, ?_, ⟨header, pre ++ [x + 1]⟩, ?_, ?_⟩
  · rw [splitBody, split]
    simp
  · rw [pos, posHead, ← length]
    simp
    omega
  · intro same
    have := List.append_cancel_left same
    simp at this
  · have body' : b ++ pre ++ (x + 1) :: c.rest = b ++ ((pre ++ [x + 1]) ++ c.rest) := by simp
    rw [body']
    refine (bind_of_ok (accepts _ (by rw [split]; simp))).trans ?_
    have lengths : (pre ++ [x + 1]).length = header.payloadLen := by
      rw [← length]
      simp
    refine (bind_of_ok (Scans.take lengths c.rest)).trans ?_
    rw [plain]
    have decoded : decodePayload zstd false (pre ++ [x + 1]) header.payloadRawLen = .ok (pre ++ [x + 1]) := by
      unfold decodePayload
      rw [if_neg (by simp), if_neg (by rw [rawLen]; simp)]
    rw [decoded]
    have here : (⟨8 + b.length + (pre ++ [x + 1]).length, c.rest⟩ : Cursor) = c := by
      obtain ⟨cpos, crest⟩ := c
      dsimp only at pos ⊢
      rw [pos, posHead, lengths]
    exact congrArg (fun c => (Except.ok ((⟨header, pre ++ [x + 1]⟩ : Content), c), ())) here

/-- A file that opened has the magic ahead of what is read. -/
theorem Opens.body (h : Opens zstd limits hash raw a) : bodyOf raw = bundleMagic ++ (bodyOf raw).drop 8 := by
  have eight : 8 ≤ raw.length - footerLen := Nat.le_sub_of_add_le h.long
  have front : (bodyOf raw).take 8 = bundleMagic := by
    rw [bodyOf, List.take_take, min_eq_left eight, h.starts]
  rw [← front, List.take_append_drop]

theorem contentLenOf_lt : contentLenOf raw < 2 ^ 64 := by
  have short : ((footerOf raw).take 8).length ≤ 8 := List.length_take_le ..
  calc contentLenOf raw < 256 ^ ((footerOf raw).take 8).length := ofLe_lt _
    _ ≤ 256 ^ 8 := Nat.pow_le_pow_right (by decide) short
    _ = 2 ^ 64 := by decide

/-- A signature over the checksum of a file that is signed whole covers its content. Where a
file holds a payload as it is, it does so only then. -/
theorem signature_covers (h : openBytes zstd limits hash raw = .ok a) :
    (SignedWhole zstd limits raw → SignatureCovers zstd limits hash raw a) ∧
      (a.content.compressed = false → a.content.payload ≠ [] →
        SignatureCovers zstd limits hash raw a → SignedWhole zstd limits raw) := by
  rw [openBytes_ok] at h
  constructor
  · intro whole raw' b opened sums injective
    rw [openBytes_ok] at opened
    have hashes : hash (signedRegion raw') = hash (signedRegion raw) := by
      refine Subtype.ext ?_
      rw [opened.signed, h.signed, ← opened.checksum, ← h.checksum, sums]
    rw [content_of_region h opened whole (injective hashes)]
    exact ⟨rfl, rfl, rfl, rfl, rfl, rfl⟩
  · intro plain some covers
    obtain ⟨c, d, read, block⟩ := h.reads
    by_contra cut
    have past : contentLenOf raw < c.pos := by
      by_contra reaches
      exact cut ⟨c.pos, contentEnd_of_read read, Nat.le_of_not_lt reaches⟩
    obtain ⟨front, x, split, pos, content, differs, read'⟩ := readContent_other read plain some
    -- The same file, but for the last byte of the payload and the checksum of the whole.
    generalize hbody : bundleMagic ++ (front ++ (x + 1) :: c.rest) = body
    have region : body.take (contentLenOf raw) = signedRegion raw := by
      have short : contentLenOf raw ≤ (bundleMagic ++ front).length := by
        rw [List.length_append]
        change _ ≤ 8 + front.length
        omega
      rw [signedRegion, h.body, split, ← hbody, ← List.append_assoc, ← List.append_assoc,
        List.take_append_of_le_length short, List.take_append_of_le_length short]
    have length : (contentChecksumOf raw).length = 32 := h.signed ▸ (hash _).2
    have opened : Opens zstd limits hash (sealBundle hash body (contentLenOf raw) (contentChecksumOf raw))
        ⟨content, a.signatures, contentChecksumOf raw⟩ := by
      refine opens_sealBundle ?_ ?_ contentLenOf_lt ?_ ?_ block
      · rw [← hbody]
        exact List.take_left' rfl
      · have := h.within
        rw [h.body, split] at this
        rw [← hbody]
        simpa using this
      · rw [region]
        exact h.signed
      · rw [← hbody]
        exact read'
    obtain ⟨-, -, -, -, -, payload⟩ := covers _ _ (openBytes_ok.mpr opened) h.checksum.symm fun _ => by
      rw [sealBundle_region length contentLenOf_lt, region]
    exact differs payload

def idleHeader (createdAt : Nat) : Header := ⟨1, false, createdAt, [], [], [], [], 0, 0⟩

def chunkHeader : Header :=
  { idleHeader 1 with
    roots := [(.chunk, .compute lengthHash .chunk [7])]
    table := [⟨.chunk, .compute lengthHash .chunk [7], 0, 1⟩]
    payloadLen := 1
    payloadRawLen := 1 }

def chunkFile : Bytes := sealUnsigned lengthHash (writeHeader chunkHeader ++ [7])

/-- A bundle of a chunk is covered by its signature. -/
theorem signature_covers_chunk : ∃ a, openBytes noZstd .default lengthHash chunkFile = .ok a ∧ a.content.payload = [7] ∧
    SignatureCovers noZstd .default lengthHash chunkFile a := by
  have opened : openBytes noZstd .default lengthHash chunkFile =
      .ok ⟨⟨chunkHeader, [7]⟩, [], (lengthHash (bundleMagic ++ (writeHeader chunkHeader ++ [7]))).1⟩ := by decide +kernel
  exact ⟨_, opened, rfl, (signature_covers opened).1 ⟨contentLenOf chunkFile, by decide +kernel, le_refl _⟩⟩

/-- A bundle of nothing whose footer says that nothing is signed. -/
def idleBundle (createdAt : Nat) : Bytes :=
  sealBundle lengthHash (bundleMagic ++ (writeHeader (idleHeader createdAt) ++ [0])) 0 (lengthHash []).1

/-- Two bundles made at different times can have one checksum: that of no bytes. -/
theorem checksum_of_nothing : ¬ ∀ (zstd : Zstd) (limits : BundleLimits) (hash : Bytes → ChunkHash)
    (raw raw' : Bytes) (a b : OpenBundle),
    openBytes zstd limits hash raw = .ok a → openBytes zstd limits hash raw' = .ok b →
    (hash (signedRegion raw) = hash (signedRegion raw') → signedRegion raw = signedRegion raw') →
    a.contentChecksum = b.contentChecksum → SameContent a.content b.content := by
  intro h
  have opens : ∀ t ∈ [1, 2], openBytes noZstd .default lengthHash (idleBundle t) =
      .ok ⟨⟨idleHeader t, []⟩, [], (lengthHash []).1⟩ := by decide +kernel
  have same := h noZstd .default lengthHash (idleBundle 1) (idleBundle 2) _ _ (opens 1 (by decide))
    (opens 2 (by decide)) (fun _ => by decide +kernel) rfl
  cases same.2.2.2.1

end Covers
end Cavs
