import Cavs.Signed

/-!
# What is written is read

A header is read back as it was written by a reader whose ceilings it is within, and by no
other; a payload is read back behind it when the compression loses nothing.
-/
namespace Cavs
open FileProg (Bytes IoError)
open ByteScan

/-- A compression that loses nothing. -/
def Zstd.Lossless (zstd : Zstd) : Prop :=
  ∀ {raw stored}, zstd.compress raw = .ok stored → zstd.decompress stored raw.length = .ok raw

/-- The kind that a tag is read as: an application id without its top bit. -/
def ObjectKind.reread (k : ObjectKind) : ObjectKind := (fromTag k.tag).getD k

theorem ObjectKind.fromTag_tag (k : ObjectKind) : fromTag k.tag = some k.reread := by
  have known : ∃ k', fromTag k.tag = some k' := by
    cases k with
    | application id =>
        have large : applicationTagBase ≤ (application id).tag := Nat.le_add_right ..
        have base : applicationTagBase = 2 ^ 31 := rfl
        generalize (application id).tag = t at large
        refine ⟨.application (UInt32.ofNat (t % applicationTagBase)), ?_⟩
        unfold fromTag
        split_ifs <;> first | rfl | omega
    | _ => exact ⟨_, rfl⟩
  obtain ⟨k', found⟩ := known
  rw [reread, found, Option.getD_some]

theorem ObjectKind.reread_eq_iff {k : ObjectKind} : k.reread = k ↔ k.Known := by
  rw [Known, fromTag_tag, Option.some.injEq]

/-- A header as it is read: of the kinds of the roots only what a tag says. -/
def Header.reread (h : Header) : Header := { h with roots := h.roots.map fun r => (r.1.reread, r.2) }

/-- The ceilings of a reader that a header is under. -/
structure Header.Within (limits : BundleLimits) (h : Header) : Prop where
  roots : h.roots.length ≤ limits.maxRoots
  prerequisites : h.prerequisites.length ≤ limits.maxObjects
  refs : h.refs.length ≤ limits.maxRefs
  names : ∀ r ∈ h.refs, (strBytes r.name).length ≤ 512
  table : h.table.length ≤ limits.maxObjects
  payload : h.payloadRawLen ≤ limits.maxPayloadBytes
  expansion : h.compressed = true → h.payloadRawLen ≤ max h.payloadLen 1 * limits.maxExpansionRatio

/-- Numbers that fit their fields, and kinds of objects that a tag stands for. -/
structure Header.Sized (h : Header) : Prop where
  version : h.formatVersion = 1
  createdAt : h.createdAt < 2 ^ 64
  roots : h.roots.length < 2 ^ 64
  prerequisites : h.prerequisites.length < 2 ^ 64
  refs : h.refs.length < 2 ^ 64 ∧ ∀ r ∈ h.refs, (strBytes r.name).length < 2 ^ 64
  table : h.table.length < 2 ^ 64 ∧ ∀ row ∈ h.table, row.kind.Known ∧ row.offset < 2 ^ 64 ∧ row.length < 2 ^ 64
  payloadLen : h.payloadLen < 2 ^ 64
  payloadRawLen : h.payloadRawLen < 2 ^ 64

section Read
variable {zstd : Zstd} {limits : BundleLimits} {p : Nat}

theorem readKind_scans {what : String} (kind : ObjectKind) :
    Scans (readKind what) () p (le 4 kind.tag) kind.reread () :=
  Scans.bind_pure (.num (kind.tag_lt.trans_eq rfl)) (.ofOption kind.fromTag_tag)

theorem readId_scans (id : ObjectId) : Scans readId () p (writeId id) id () := readIdAs_scans id

theorem readBundleRoot_scans (root : ObjectKind × ObjectId) :
    Scans readBundleRoot () p (writeBundleRoot root) (root.1.reread, root.2) () :=
  (readKind_scans _).bind ((readId_scans _).bind_pure (.pure _))

theorem readRef_takes {r : BundleRef} (short : (strBytes r.name).length < 2 ^ 64) :
    Takes readRef () (writeRef r) r ((strBytes r.name).length ≤ 512) := by
  refine (Takes.bind (.of_scans fun _ => readVaruint_scans short) fun _ => .guard fun _ => .bind (x := strBytes r.name)
    (.of_scans fun _ => .take rfl) fun _ => .first (.of_scans fun _ => .ofOption (utf8_strBytes _)) fun _ =>
    .last (x := r.target) (.of_scans fun _ => readId_scans _) fun _ => .pure (⟨r.name, r.target⟩ : BundleRef)).congr ?_
  rw [true_and, and_true, and_true, and_true, and_true, Nat.not_lt]

theorem readRow_scans {row : Row} (known : row.kind.Known) (offset : row.offset < 2 ^ 64)
    (length : row.length < 2 ^ 64) : Scans readRow () p (writeRow row) row () := by
  have kind : Scans (readKind "object kind") () p (le 4 row.kind.tag) row.kind.reread () := readKind_scans _
  rw [ObjectKind.reread_eq_iff.mpr known] at kind
  exact kind.bind ((readId_scans _).bind ((readVaruint_scans offset).bind
    ((readVaruint_scans length).bind_pure (.pure _))))

theorem bounded_takes (value max : Nat) (what : String) : Takes (bounded value max what) () [] value (value ≤ max) :=
  (Takes.guard fun _ => .pure value).congr (by rw [and_true, Nat.not_lt])

/-- A look ahead at no more than what is read next. -/
theorem atLeast_takes {β : Type} {e : ObjectError} {n : Nat} {f : Unit → ObjScan β} {b : Bytes} {y : β} {P : Prop}
    (long : n ≤ b.length) (h : Takes (f ()) () b y P) : Takes (atLeast e n >>= f) () b y P := by
  have enough : ∀ p rest, atLeast e n () ⟨p, b ++ rest⟩ = (.ok ((), ⟨p, b ++ rest⟩), ()) := by
    intro p rest
    change (if n > (b ++ rest).length then Scan.throw e else pure () : ObjScan Unit) () ⟨p, b ++ rest⟩ = _
    rw [if_neg (by rw [List.length_append]; omega)]
    rfl
  constructor
  · intro holds p rest
    exact (bind_of_ok (enough p rest)).trans (h.scans holds p rest)
  · intro p rest z c t run
    rw [bind_of_ok (enough p rest)] at run
    exact h.only run

theorem writeRow_length (row : Row) : 39 ≤ (writeRow row).length := by
  have := writeVaruint_length_pos row.offset
  have := writeVaruint_length_pos row.length
  simp only [writeRow, List.length_append, le_length, writeId_length]
  omega

/-- A header is read back exactly when it is within the ceilings. -/
theorem readHeader_takes {h : Header} (sized : h.Sized) :
    Takes (readHeader limits) () (writeHeader h) h.reread (h.Within limits) := by
  obtain ⟨version, compressed, createdAt, roots, prerequisites, refs, table, payloadLen, payloadRawLen⟩ := h
  obtain ⟨one, created, rootCount, prerequisiteCount, ⟨refCount, names⟩, ⟨rowCount, rows⟩, len, rawLen⟩ := sized
  dsimp only at *
  subst one
  have bit : (if compressed = true then 1 else 0) < 256 ^ 2 := by split <;> decide
  have ids := length_flatMap_ge (f := writeId) (l := prerequisites) fun id _ => (writeId_length id).ge
  have least := length_flatMap_ge (f := writeRow) (l := table) fun row _ => writeRow_length row
  have idsRead : Takes (Scan.collect prerequisites.length readId) () (prerequisites.flatMap writeId) prerequisites True := by
    simpa using Takes.collect writeId id prerequisites fun id _ => .of_scans fun _ => readId_scans id
  have refsRead : Takes (Scan.collect refs.length readRef) () (refs.flatMap writeRef) refs
      (∀ r ∈ refs, (strBytes r.name).length ≤ 512) := by
    simpa using Takes.collect writeRef id refs fun r mem => readRef_takes (names r mem)
  have rowsRead : Takes (Scan.collect table.length readRow) () (table.flatMap writeRow) table True := by
    simpa using Takes.collect writeRow id table fun row mem => .of_scans fun _ =>
      readRow_scans (rows row mem).1 (rows row mem).2.1 (rows row mem).2.2
  have rootsRead := Takes.collect writeBundleRoot (fun r => (r.1.reread, r.2)) roots fun r _ =>
    .of_scans fun _ => readBundleRoot_scans r
  unfold readHeader writeHeader
  dsimp only
  rw [writeList, writeList, writeList, writeList, List.append_assoc, List.append_assoc, List.append_assoc,
    List.append_assoc]
  refine (Takes.bind (.of_scans fun _ => Scans.num (n := 1) (by decide)) fun _ => .guard fun _ =>
    .bind (.of_scans fun _ => .num bit) fun _ => .guard fun _ =>
    .bind (.of_scans fun _ => .num created) fun _ =>
    .bind (.of_scans fun _ => readVaruint_scans rootCount) fun _ => .first (bounded_takes ..) fun _ =>
    .bind rootsRead fun _ =>
    .bind (.of_scans fun _ => readVaruint_scans prerequisiteCount) fun _ => .first (bounded_takes ..) fun _ =>
    atLeast_takes (by rw [List.length_append]; omega) <| .bind idsRead fun _ =>
    .bind (.of_scans fun _ => readVaruint_scans refCount) fun _ => .first (bounded_takes ..) fun _ =>
    .bind refsRead fun _ =>
    .bind (.of_scans fun _ => readVaruint_scans rowCount) fun _ => .first (bounded_takes ..) fun _ =>
    atLeast_takes (by rw [List.length_append]; omega) <| .bind rowsRead fun _ =>
    .bind (.of_scans fun _ => .num len) fun _ => .last (.of_scans fun _ => .num rawLen) fun _ =>
    .guard fun _ => .guard fun _ => (?_ : Takes _ _ _ _ True)).congr ?_
  · cases compressed <;> exact Takes.pure _
  have flag : ((if compressed = true then 1 else 0) % 2 = 1) ↔ compressed = true := by
    cases compressed <;> decide
  rw [flag]
  constructor
  · rintro ⟨-, -, -, -, -, -, maxRoots, -, -, maxPrerequisites, -, -, maxRefs, names, -, maxTable, -, -, -, large, claims, -⟩
    refine ⟨maxRoots, maxPrerequisites, maxRefs, names, maxTable, Nat.le_of_not_lt large, fun set => ?_⟩
    have := not_and.mp claims set
    dsimp only
    omega
  · rintro ⟨maxRoots, maxPrerequisites, maxRefs, names, maxTable, small, expands⟩
    have zeroFlags : ¬ (if compressed = true then 1 else 0) / 2 ≠ 0 := by cases compressed <;> decide
    refine ⟨trivial, by simp, trivial, zeroFlags, trivial, trivial, maxRoots, fun _ _ => trivial, trivial, maxPrerequisites,
      trivial, trivial, maxRefs, names, trivial, maxTable, trivial, trivial, trivial, Nat.not_lt_of_le small, ?_, trivial⟩
    rintro ⟨set, claims⟩
    have := expands set
    dsimp only at this
    omega

theorem readContent_takes {h : Header} {stored payload : Bytes} (sized : h.Sized) (length : stored.length = h.payloadLen)
    (decoded : decodePayload zstd h.compressed stored h.payloadRawLen = .ok payload) :
    Takes (readContent zstd limits) () (writeHeader h ++ stored) ⟨h.reread, payload⟩ (h.Within limits) := by
  refine (Takes.bind (readHeader_takes sized) fun _ => .last (.of_scans fun _ => Scans.take length) fun _ =>
    (?_ : Takes _ _ _ _ True)).congr (by rw [true_and, and_true])
  rw [show h.reread.compressed = h.compressed from rfl, show h.reread.payloadRawLen = h.payloadRawLen from rfl,
    decoded]
  exact .pure _

theorem readSignatures_none (p : Nat) : readSignatures () ⟨p, writeVaruint 0⟩ = (.ok ([], ⟨p + 1, []⟩), ()) := rfl

/-- A bundle opens exactly when it is within the ceilings, and then holds what was written. -/
theorem openBytes_sealUnsigned {hash : Bytes → ChunkHash} {h : Header} {stored payload : Bytes} {a : OpenBundle}
    (sized : h.Sized) (length : stored.length = h.payloadLen)
    (decoded : decodePayload zstd h.compressed stored h.payloadRawLen = .ok payload)
    (small : (bundleMagic ++ (writeHeader h ++ stored)).length < 2 ^ 64) :
    openBytes zstd limits hash (sealUnsigned hash (writeHeader h ++ stored)) = .ok a ↔
      h.Within limits ∧ a = ⟨⟨h.reread, payload⟩, [], (hash (bundleMagic ++ (writeHeader h ++ stored))).1⟩ := by
  have takes : Takes (readContent zstd limits) () _ _ _ := readContent_takes sized length decoded
  have opens : h.Within limits → openBytes zstd limits hash (sealUnsigned hash (writeHeader h ++ stored)) =
      .ok ⟨⟨h.reread, payload⟩, [], (hash (bundleMagic ++ (writeHeader h ++ stored))).1⟩ := by
    intro within
    rw [openBytes_ok, sealUnsigned]
    refine opens_sealBundle (c := ⟨8 + (writeHeader h ++ stored).length, writeVaruint 0⟩) ?_ ?_ small ?_ ?_
      (readSignatures_none _)
    · rw [List.append_assoc]
      exact List.take_left' rfl
    · rw [show (bundleMagic ++ (writeHeader h ++ stored) ++ writeVaruint 0).length = _ from List.length_append]
      exact Nat.le_add_right ..
    · rw [List.take_left]
    · rw [List.append_assoc]
      exact takes.scans within 8 (writeVaruint 0)
  constructor
  · intro ok
    obtain ⟨c, d, read, -⟩ := (openBytes_ok.mp ok).reads
    rw [sealUnsigned, (sealBundle_parts _ (hash _).2).2.1, List.append_assoc] at read
    have within := (takes.only read).1
    rw [opens within] at ok
    exact ⟨within, (Except.ok.inj ok).symm⟩
  · rintro ⟨within, rfl⟩
    exact opens within

end Read

section Limits
variable {limits limits' : DecodeLimits} {kind : ObjectKind} {bytes : Bytes}

theorem readEnvelope_agrees : Agrees (readEnvelope kind limits) (readEnvelope kind limits') :=
  .bind (.refl _) fun _ => .guard <| .bind (.refl _) fun _ => .bind (.refl _) fun _ => .guard <|
    .bind (.refl _) fun _ => .guard <| .bind (.refl _) fun _ => .guard <| .bind (.refl _) fun _ =>
    .bind (.refl _) fun _ => .guard <| .bind (.refl _) fun _ => .guard <| .refl _

/-- Limits decide whether an object is read, not what is read. -/
theorem decodeEnvelope_agrees {e e' : ObjectEnvelope} (h : decodeEnvelope kind bytes limits = .ok e)
    (h' : decodeEnvelope kind bytes limits' = .ok e') : e' = e := by
  unfold decodeEnvelope at h h'
  split_ifs at h h' with large payload
  · cases h
    cases h'
    rfl
  · cases read : (readEnvelope kind limits () ⟨0, bytes⟩).1 with
    | error e => rw [read] at h; cases h
    | ok r =>
        cases read' : (readEnvelope kind limits' () ⟨0, bytes⟩).1 with
        | error e => rw [read'] at h'; cases h'
        | ok r' =>
            rw [read] at h
            rw [read'] at h'
            cases h
            cases h'
            exact (readEnvelope_agrees _ _ _ _ _ _ _ _ (Prod.ext read rfl) (Prod.ext read' rfl)).1

end Limits
end Cavs
