import Cavs.FileExec
import Cavs.Signed
import Mathlib.Data.Finset.Card

/-!
# Adding a signature

A signature is added by cutting the file at the length in its footer and writing a new
block behind the cut. The reader takes at most sixty-four signatures, and does not ask that
the length is that of the content; the writer checks neither.
-/
namespace Cavs
open FileProg (Bytes Eff File IoError Sem World get_put_ne get_put_self)
open FileProg.Eff (ofExcept op orThrow wp_append wp_bad wp_good wp_iff wp_read wp_rename wp_sync wp_write)
open ByteScan
open List (length_append length_singleton map_cons mem_map toFinset_cons)

/-- A signature as it travels. -/
abbrev WireSignature := { s : Signature // s.keyId.length = 8 ∧ s.bytes.length = 64 }

/-- The file, and where it is written first. -/
inductive BundlePath where
  | bundle
  | temporary
  deriving DecidableEq, Repr

abbrev BundleM (α : Type) := Eff BundlePath Empty Unit ObjectError Unit α

section Sign
variable (zstd : Zstd) (limits : BundleLimits) (hash : Bytes → ChunkHash)

def writeSignature (s : Signature) : Bytes := s.keyId ++ s.bytes

def keyTaken : ObjectError := .corrupt "this bundle already carries a signature from that key"

/-- The file with one more signature. -/
def countersign (raw : Bytes) (signature : WireSignature) : Except ObjectError Bytes :=
  match openBytes zstd limits hash raw with
  | .error e => .error e
  | .ok opened =>
      let contentLen := contentLenOf raw
      let body := raw.take contentLen
      if opened.signatures.any (fun s => s.keyId = signature.1.keyId) then .error keyTaken
      else
        let signatures := opened.signatures ++ [signature.1]
        .ok (sealBundle hash (body ++ writeList writeSignature signatures) contentLen opened.contentChecksum)

def writeAtomically (bytes : Bytes) : BundleM Unit := do
  orThrow (.io "create bundle") (← op (.write .temporary []))
  orThrow (.io "write bundle") (← op (.append .temporary bytes))
  orThrow (.io "sync bundle") (← op (.sync .temporary))
  orThrow (.io "publish bundle") (← op (.rename .temporary .bundle))

def appendSignature (signature : WireSignature) : BundleM Unit := do
  let raw ← orThrow (.io "read bundle") (← op (.read .bundle))
  let whole ← ofExcept (countersign zstd limits hash raw signature)
  writeAtomically whole

end Sign

section Block
variable {s : Signature} {signatures : List Signature} {c d : Cursor} {p : Nat}

/-- The sizes of a signature are those of its two fields. -/
def Signature.Sized (s : Signature) : Prop := s.keyId.length = 8 ∧ s.bytes.length = 64

theorem readSignature_ok {t u : Unit} (run : readSignature t c = (.ok (s, d), u)) :
    s.Sized ∧ c.rest = writeSignature s ++ d.rest := by
  obtain ⟨keyId, c', t', first, run⟩ := ok_of_bind run
  obtain ⟨bytes, c'', t'', second, run⟩ := ok_of_bind run
  cases run
  obtain ⟨split, length, -, -⟩ := ok_of_take first
  obtain ⟨split', length', -, -⟩ := ok_of_take second
  refine ⟨⟨length, length'⟩, ?_⟩
  rw [split, split', writeSignature, List.append_assoc]

theorem readSignature_scans (sized : s.Sized) : Scans readSignature () p (writeSignature s) s () :=
  (Scans.take sized.1).bind (Scans.bind_pure (Scans.take sized.2) (Scans.pure _))

/-- The block is read to the end, and was written from what is read. -/
theorem readSignatures_ok {t u : Unit} (run : readSignatures t c = (.ok (signatures, d), u)) :
    signatures.length ≤ 64 ∧ (∀ s ∈ signatures, s.Sized) ∧ c.rest = writeList writeSignature signatures := by
  obtain ⟨count, c₁, t₁, read, run⟩ := ok_of_bind run
  obtain ⟨n, c₂, t₂, below, run⟩ := ok_of_bind run
  obtain ⟨l, c₃, t₃, items, run⟩ := ok_of_bind run
  obtain ⟨left, c₄, t₄, looked, last⟩ := ok_of_bind run
  cases looked
  obtain ⟨-, split⟩ := readVaruint_ok read
  obtain ⟨length, sized, split'⟩ := ok_of_collect readSignature_ok items
  unfold bounded at below
  by_cases many : count > 64
  · cases (congrFun₂ (if_pos many) _ _).symm.trans below
  cases (congrFun₂ (if_neg many) _ _).symm.trans below
  by_cases more : c₃.rest.length ≠ 0
  · cases (congrFun₂ (if_pos more) _ _).symm.trans last
  cases (congrFun₂ (if_neg more) _ _).symm.trans last
  refine ⟨length ▸ Nat.le_of_not_lt many, sized, ?_⟩
  have spent : d.rest = [] := List.eq_nil_of_length_eq_zero (not_not.mp more)
  rw [split, split', spent, List.append_nil, writeList, length]

theorem readSignatures_written (few : signatures.length ≤ 64) (sized : ∀ s ∈ signatures, s.Sized) :
    ∃ d, readSignatures () ⟨p, writeList writeSignature signatures⟩ = (.ok (signatures, d), ()) := by
  have word : signatures.length < 2 ^ 64 := by omega
  have count := readVaruint_scans (p := p) word
  have items := Scans.collect writeSignature id signatures (m := readSignature) (s := ()) (fun s mem p =>
    readSignature_scans (sized s mem)) (p + (writeVaruint signatures.length).length)
  have ends := items.whole
  rw [List.map_id] at ends
  refine ⟨⟨p + (writeVaruint signatures.length).length + (signatures.flatMap writeSignature).length, []⟩, ?_⟩
  refine (bind_of_ok (count _)).trans ?_
  refine (bind_of_ok (congrFun₂ (if_neg (Nat.not_lt.mpr few)) _ _)).trans ?_
  refine (bind_of_ok ends).trans ?_
  exact (bind_of_ok (x := 0) rfl).trans (congrFun₂ (if_neg fun h => h rfl) _ _)

theorem writeSignature_length (sized : s.Sized) : (writeSignature s).length = 72 := by
  rw [writeSignature, length_append, sized.1, sized.2]

theorem flatMap_writeSignature_length (sized : ∀ s ∈ signatures, s.Sized) :
    (signatures.flatMap writeSignature).length = 72 * signatures.length := by
  induction signatures with
  | nil => rfl
  | cons s signatures ih =>
      have rest := ih fun s mem => sized s (.tail _ mem)
      rw [List.flatMap_cons, length_append, writeSignature_length (sized s (.head _)), rest, List.length_cons]
      omega

/-- Up to sixty-four signatures are counted in one byte. -/
theorem writeList_length (few : signatures.length ≤ 64) (sized : ∀ s ∈ signatures, s.Sized) :
    (writeList writeSignature signatures).length = 1 + 72 * signatures.length := by
  have table : ∀ n : Fin 65, (writeVaruint n.1).length = 1 := by decide
  have count := table ⟨signatures.length, by omega⟩
  rw [writeList, length_append, count, flatMap_writeSignature_length sized]

/-- A block with one signature more is longer. -/
theorem writeList_grows (few : signatures.length ≤ 64) (sized : ∀ s ∈ signatures, s.Sized) (more : s.Sized) :
    (writeList writeSignature signatures).length ≤ (writeList writeSignature (signatures ++ [s])).length := by
  have count := writeVaruint_length_pos (signatures ++ [s]).length
  have sized' : ∀ x ∈ signatures ++ [s], x.Sized := by
    intro x mem
    rcases List.mem_append.mp mem with old | new
    · exact sized x old
    · exact List.mem_singleton.mp new ▸ more
  rw [writeList_length few sized, writeList, length_append, flatMap_writeSignature_length sized', length_append,
    length_singleton]
  omega

end Block

section Reads
variable {zstd : Zstd} {limits : BundleLimits} {hash : Bytes → ChunkHash} {raw : Bytes} {a b : OpenBundle}
  {signature : WireSignature}

/-- The second bundle is the first with one signature more. -/
structure Extends (a : OpenBundle) (signature : WireSignature) (b : OpenBundle) : Prop where
  checksum : b.contentChecksum = a.contentChecksum
  roots : b.content.roots = a.content.roots
  refs : b.content.refs = a.content.refs
  table : b.content.table = a.content.table
  payload : b.content.payload = a.content.payload
  signatures : b.signatures = a.signatures ++ [signature.1]

/-- The signed region ends where the content does. -/
def EndsSigned (zstd : Zstd) (limits : BundleLimits) (raw : Bytes) : Prop :=
  contentEnd zstd limits raw = some (contentLenOf raw)

/-- The body of the file with one signature more. -/
def bodyWith (raw : Bytes) (a : OpenBundle) (signature : WireSignature) : Bytes :=
  signedRegion raw ++ writeList writeSignature (a.signatures ++ [signature.1])

/-- The file with one signature more. -/
def fileWith (hash : Bytes → ChunkHash) (raw : Bytes) (a : OpenBundle) (signature : WireSignature) : Bytes :=
  sealBundle hash (bodyWith raw a signature) (contentLenOf raw) a.contentChecksum

theorem countersign_of_opens (h : Opens zstd limits hash raw a) : countersign zstd limits hash raw signature =
    if a.signatures.any (fun s => s.keyId = signature.1.keyId) then .error keyTaken
    else .ok (fileWith hash raw a signature) := by
  have region : raw.take (contentLenOf raw) = signedRegion raw := by
    have within := h.within
    rw [bodyOf, List.length_take] at within
    rw [signedRegion, bodyOf, List.take_take, min_eq_left (by omega)]
  unfold countersign
  rw [openBytes_ok.mpr h]
  dsimp only
  rw [region]
  rfl

theorem Opens.checksum_length (h : Opens zstd limits hash raw a) : a.contentChecksum.length = 32 := by
  rw [h.checksum, ← h.signed]
  exact (hash _).2

theorem Opens.signatures_ok (h : Opens zstd limits hash raw a) :
    a.signatures.length ≤ 64 ∧ ∀ s ∈ a.signatures, s.Sized := by
  obtain ⟨c, d, -, block⟩ := h.reads
  obtain ⟨few, sized, -⟩ := readSignatures_ok block
  exact ⟨few, sized⟩

theorem sized_more (sized : ∀ s ∈ a.signatures, s.Sized) : ∀ s ∈ a.signatures ++ [signature.1], s.Sized := by
  intro s mem
  rcases List.mem_append.mp mem with old | new
  · exact sized s old
  · rw [List.mem_singleton.mp new]
    exact signature.2

theorem Opens.region_starts (h : Opens zstd limits hash raw a) (long : 8 ≤ contentLenOf raw) (rest : Bytes) :
    (signedRegion raw ++ rest).take 8 = bundleMagic := by
  have reaches : 8 ≤ (signedRegion raw).length := h.region_length ▸ long
  rw [List.take_append_of_le_length reaches, signedRegion, List.take_take, min_eq_left long, h.body]
  rfl

/-- Where the signed region is the content, the content is read again, whatever follows it
that is no shorter. -/
theorem Opens.reads_again (h : Opens zstd limits hash raw a) (ends : EndsSigned zstd limits raw) :
    8 ≤ contentLenOf raw ∧ ∀ rest, (writeList writeSignature a.signatures).length ≤ rest.length →
      readContent zstd limits () ⟨8, (signedRegion raw ++ rest).drop 8⟩ =
        (.ok (a.content, ⟨contentLenOf raw, rest⟩), ()) := by
  obtain ⟨c, d, read, block⟩ := h.reads
  obtain ⟨b, split, pos, again⟩ := composed_readContent.decides.prolongs composed_readContent.prolongs read
  have at_ : c.pos = contentLenOf raw := Option.some.inj ((contentEnd_of_read read).symm.trans ends)
  have long : 8 ≤ contentLenOf raw := by omega
  have region : (signedRegion raw).drop 8 = b := by
    have cut : contentLenOf raw - 8 = b.length := by omega
    rw [signedRegion, List.drop_take, cut, split, List.take_left]
  refine ⟨long, fun rest longer => ?_⟩
  have reaches : 8 ≤ (signedRegion raw).length := h.region_length ▸ long
  rw [← (readSignatures_ok block).2.2] at longer
  rw [List.drop_append_of_le_length reaches, region, again rest longer, ← pos, at_]

/-- A signature is added well when the signed region is the content and there is room. -/
theorem Opens.extended (h : Opens zstd limits hash raw a) (ends : EndsSigned zstd limits raw)
    (room : a.signatures.length < 64) (signature : WireSignature) :
    Opens zstd limits hash (fileWith hash raw a signature)
      { a with signatures := a.signatures ++ [signature.1] } ∧
      EndsSigned zstd limits (fileWith hash raw a signature) := by
  obtain ⟨few, sized⟩ := h.signatures_ok
  have sized' : ∀ s ∈ a.signatures ++ [signature.1], s.Sized := sized_more sized
  have few' : (a.signatures ++ [signature.1]).length ≤ 64 := by
    rw [length_append, length_singleton]
    exact room
  have longer := writeList_grows few sized signature.2
  obtain ⟨long, again⟩ := h.reads_again ends
  have read := again _ longer
  obtain ⟨d, block⟩ := readSignatures_written (p := contentLenOf raw) few' sized'
  have region : (bodyWith raw a signature).take (contentLenOf raw) = signedRegion raw :=
    List.take_left' h.region_length
  have checksum := h.checksum_length
  constructor
  · refine opens_sealBundle (h.region_starts long _) ?_ contentLenOf_lt ?_ read block
    · rw [bodyWith, length_append, h.region_length]
      exact Nat.le_add_right _ _
    · rw [region, h.signed, h.checksum]
  · rw [EndsSigned, fileWith, sealBundle_contentLen checksum contentLenOf_lt]
    refine contentEnd_of_read (Eq.trans ?_ read)
    rw [(sealBundle_parts _ checksum).2.1]
    rfl

/-- Nothing else reads back as the bundle with one signature more. -/
theorem Opens.of_extended (h : Opens zstd limits hash raw a)
    (h' : Opens zstd limits hash (fileWith hash raw a signature) b) (signatures : b.signatures = a.signatures ++ [signature.1]) :
    EndsSigned zstd limits raw ∧ a.signatures.length < 64 := by
  obtain ⟨c, d, read, -⟩ := h.reads
  obtain ⟨c', d', read', block'⟩ := h'.reads
  obtain ⟨few, -, written⟩ := readSignatures_ok block'
  rw [signatures] at few written
  rw [fileWith, (sealBundle_parts _ h.checksum_length).2.1] at read'
  obtain ⟨b', split, -, only, -⟩ := composed_readContent.decides _ _ _ _ _ _ read'
  rw [bodyWith, written] at split
  -- By their lengths, the region reaches past the magic, and the block is read from where it starts.
  have lengths := congrArg List.length split
  rw [List.length_drop, length_append, length_append, h.region_length] at lengths
  have positive : 1 ≤ (writeList writeSignature (a.signatures ++ [signature.1])).length := by
    rw [writeList_length few (sized_more h.signatures_ok.2)]
    omega
  have long : 8 ≤ contentLenOf raw := by omega
  rw [List.drop_append_of_le_length (h.region_length ▸ long)] at split
  have region : (signedRegion raw).drop 8 = b' := List.append_cancel_right split
  have reaches : 8 ≤ (signedRegion raw).length := h.region_length ▸ long
  have body : (bodyOf raw).drop 8 = b' ++ (bodyOf raw).drop (contentLenOf raw) := by
    calc (bodyOf raw).drop 8
        = (signedRegion raw ++ (bodyOf raw).drop (contentLenOf raw)).drop 8 := by
          rw [signedRegion, List.take_append_drop]
      _ = (signedRegion raw).drop 8 ++ (bodyOf raw).drop (contentLenOf raw) :=
          List.drop_append_of_le_length reaches
      _ = _ := by rw [region]
  have ends := contentEnd_of_read read
  rw [body] at read
  have at_ : c = ⟨8 + b'.length, (bodyOf raw).drop (contentLenOf raw)⟩ := (only read).2.1
  have length : 8 + b'.length = contentLenOf raw := by
    rw [← region, List.length_drop, h.region_length]
    omega
  refine ⟨?_, ?_⟩
  · rw [EndsSigned, ends, at_, length]
  · rw [length_append, length_singleton] at few
    exact few

/-- With no room left, nobody opens what is written. -/
theorem Opens.full (h : Opens zstd limits hash raw a) (ends : EndsSigned zstd limits raw)
    (full : a.signatures.length = 64) (signature : WireSignature) (b : OpenBundle) :
    openBytes zstd limits hash (fileWith hash raw a signature) ≠ .ok b := by
  intro opened
  obtain ⟨c, d, read, block⟩ := (openBytes_ok.mp opened).reads
  obtain ⟨few, -, written⟩ := readSignatures_ok block
  have longer := writeList_grows h.signatures_ok.1 h.signatures_ok.2 signature.2
  rw [fileWith, (sealBundle_parts _ h.checksum_length).2.1, bodyWith, (h.reads_again ends).2 _ longer] at read
  simp only [Prod.mk.injEq, Except.ok.injEq] at read
  obtain ⟨⟨-, rfl⟩, -⟩ := read
  have size : (a.signatures ++ [signature.1]).length = b.signatures.length := by
    refine (writeVaruint_inj ?_ ?_ written).1
    · rw [length_append, full, length_singleton]
      decide
    · omega
  rw [length_append, full, length_singleton] at size
  omega

end Reads

section Files
variable {zstd : Zstd} {limits : BundleLimits} {hash : Bytes → ChunkHash} {signature : WireSignature}
  {w v : World BundlePath Empty} {r : Except ObjectError Unit} {f : File}

/-- Any operation may fail. -/
def bundleSem : Sem BundlePath Empty Unit where
  digest _ := ()
  parent _ := none
  mayFail _ _ := True
  holds k _ := nomatch k

/-- How a file that is written atomically is found: new, or as it was. -/
def Rewritten (w : World BundlePath Empty) (bytes : Bytes) : Except ObjectError Unit → Unit → World BundlePath Empty → Prop
  | .ok (), _, v => ∃ t, v.get .bundle = some ⟨bytes, t⟩
  | .error _, _, v => v.get .bundle = w.get .bundle

theorem writeAtomically_wp (bytes : Bytes) (w : World BundlePath Empty) :
    (writeAtomically bytes).Wp bundleSem (fun _ => True) (Rewritten w bytes) () w := by
  have apart : (.bundle : BundlePath) ≠ .temporary := by decide
  unfold writeAtomically
  refine (wp_write rfl trivial (fun _ _ => trivial) (fun t₁ => ?created) fun _ v cut => ?_).then
  case created =>
    apply wp_good
    refine (wp_append rfl trivial (fun _ _ => trivial) (fun t₂ => ?written) fun _ v cut => ?_).then
    case written =>
      apply wp_good
      rw [FileProg.bytes_of_get (get_put_self ..), List.nil_append]
      refine (wp_sync trivial ?synced fun _ => ?_).then
      case synced =>
        apply wp_good
        refine (wp_rename rfl trivial (fun g found => ⟨trivial, trivial, ?_⟩) (fun _ => ⟨trivial, ?_⟩)
          fun _ => ⟨trivial, ?_⟩).then
        · rw [get_put_self] at found
          cases found
          exact ⟨t₂, FileProg.get_move_self ..⟩
        · exact (get_put_ne apart ..).trans (get_put_ne apart ..)
        · exact (get_put_ne apart ..).trans (get_put_ne apart ..)
      · apply wp_bad trivial
        exact (get_put_ne apart ..).trans (get_put_ne apart ..)
    · apply wp_bad trivial
      rcases cut with rfl | ⟨n, t, rfl⟩
      · exact get_put_ne apart ..
      · exact (get_put_ne apart ..).trans (get_put_ne apart ..)
  · apply wp_bad trivial
    rcases cut with rfl | ⟨n, t, rfl⟩
    · rfl
    · exact get_put_ne apart ..

/-- A call replaces the file by the one with the signature, or leaves it. -/
theorem appendSignature_ends (found : w.get .bundle = some f)
    (run : (appendSignature zstd limits hash signature).Runs bundleSem () w r () v) :
    (r = .ok () ∧ ∃ new t, countersign zstd limits hash f.bytes signature = .ok new ∧ v.get .bundle = some ⟨new, t⟩) ∨
      ∃ e, r = .error e ∧ v.get .bundle = w.get .bundle := by
  have wp : (appendSignature zstd limits hash signature).Wp bundleSem (fun _ => True) (fun r _ v =>
      (r = .ok () ∧ ∃ new t, countersign zstd limits hash f.bytes signature = .ok new ∧ v.get .bundle = some ⟨new, t⟩) ∨
        ∃ e, r = .error e ∧ v.get .bundle = w.get .bundle) () w := by
    unfold appendSignature
    refine (wp_read trivial (fun g there => ?_) (fun absent => ?_) fun _ => ?_).then
    · apply wp_good
      cases found.symm.trans there
      cases signed : countersign zstd limits hash f.bytes signature with
      | error e => exact ⟨trivial, .inr ⟨e, rfl, rfl⟩⟩
      | ok new =>
          refine (writeAtomically_wp new w).mono (fun _ _ => trivial) fun r _ v replaced => ?_
          cases r with
          | ok u =>
              obtain ⟨t, there⟩ := replaced
              exact .inl ⟨rfl, new, t, rfl, there⟩
          | error e => exact .inr ⟨e, rfl, replaced⟩
    · exact wp_bad trivial (.inr ⟨_, rfl, rfl⟩)
    · exact wp_bad trivial (.inr ⟨_, rfl, rfl⟩)
  exact ((wp_iff ..).mp wp).2 r () v run

/-- Nothing need fail. -/
theorem appendSignature_runs {new : Bytes} (found : w.get .bundle = some f)
    (signed : countersign zstd limits hash f.bytes signature = .ok new) :
    ∃ v, (appendSignature zstd limits hash signature).Runs bundleSem () w (.ok ()) () v := by
  have good : ∀ {x : BundleM Unit} {w v : World BundlePath Empty} {h : IoError → ObjectError},
      x.Ends () w (.ok ()) () v → (orThrow h (.ok ()) >>= fun _ => x).Ends () w (.ok ()) () v := fun ends => ends
  have writes : (writeAtomically new).Ends () w (.ok ()) () (((w.put .temporary [] 0).put .temporary
      ((w.put .temporary [] 0).bytes .temporary ++ new) 0).move .temporary .bundle
        ⟨(w.put .temporary [] 0).bytes .temporary ++ new, 0⟩) :=
    (Eff.Ends.write _ _).bind (good ((Eff.Ends.append _ _).bind (good ((Eff.Ends.sync _).bind (good
      ((Eff.Ends.rename (get_put_self ..)).bind rfl))))))
  have reads : ∀ {v}, (writeAtomically new).Ends () w (.ok ()) () v →
      (appendSignature zstd limits hash signature).Ends () w (.ok ()) () v := by
    intro v writes
    refine (Eff.Ends.read found).bind ?_
    change (ofExcept (countersign zstd limits hash f.bytes signature) >>= writeAtomically).Ends () w _ _ _
    rw [signed]
    exact writes
  exact ⟨_, (reads writes).runs fun _ => rfl⟩

theorem appendSignature_refused {e : ObjectError} (found : w.get .bundle = some f)
    (refused : countersign zstd limits hash f.bytes signature = .error e) :
    (appendSignature zstd limits hash signature).Runs bundleSem () w (.error e) () w := by
  have ends : (appendSignature zstd limits hash signature).Ends () w (.error e) () w := by
    refine (Eff.Ends.read found).bind ?_
    change (ofExcept (countersign zstd limits hash f.bytes signature) >>= writeAtomically).Ends () w _ _ _
    rw [refused]
    rfl
  exact ends.runs fun _ => rfl

end Files

section Calls
variable {zstd : Zstd} {limits : BundleLimits} {hash : Bytes → ChunkHash} {a : OpenBundle}
  {w v : World BundlePath Empty} {f : File} {l : List WireSignature}

/-- A call: what was there, whose signature it was to add, how it ended and what is there then. -/
structure SignCall where
  before : World BundlePath Empty
  signature : WireSignature
  result : Except ObjectError Unit
  after : World BundlePath Empty

variable (zstd limits hash) in
/-- Calls one after another, as far as they have come. -/
inductive Signing : World BundlePath Empty → List WireSignature → List SignCall → World BundlePath Empty → Prop
  | nil (w : World BundlePath Empty) (l : List WireSignature) : Signing w l [] w
  | cons {w v u : World BundlePath Empty} {signature : WireSignature} {l : List WireSignature}
      {calls : List SignCall} {r : Except ObjectError Unit}
      (run : (appendSignature zstd limits hash signature).Runs bundleSem () w r () v) (rest : Signing v l calls u) :
      Signing w (signature :: l) (⟨w, signature, r, v⟩ :: calls) u

variable (zstd limits hash) in
/-- A call that is done leaves a file that opens as the one before with the signature added;
one that fails leaves the file. -/
def SignCall.Keeps (call : SignCall) : Prop :=
  match call.result with
  | .ok () => ∃ f g a b, call.before.get .bundle = some f ∧ call.after.get .bundle = some g ∧
      openBytes zstd limits hash f.bytes = .ok a ∧ openBytes zstd limits hash g.bytes = .ok b ∧ Extends a call.signature b
  | .error _ => call.after.get .bundle = call.before.get .bundle

/-- How many keys among the signatures have not signed yet. -/
def newKeys (a : OpenBundle) (l : List WireSignature) : Nat :=
  ((l.map fun s => s.1.keyId).toFinset \ (a.signatures.map Signature.keyId).toFinset).card

theorem newKeys_old {signature : WireSignature} (old : a.signatures.any (fun s => s.keyId = signature.1.keyId) = true) :
    newKeys a (signature :: l) = newKeys a l := by
  have mem : signature.1.keyId ∈ (a.signatures.map Signature.keyId).toFinset := by
    obtain ⟨s, there, same⟩ := List.any_eq_true.mp old
    rw [List.mem_toFinset, mem_map]
    exact ⟨s, there, of_decide_eq_true same⟩
  rw [newKeys, map_cons, toFinset_cons, Finset.insert_sdiff_of_mem _ mem, newKeys]

theorem newKeys_new {signature : WireSignature} {b : OpenBundle} (signatures : b.signatures = a.signatures ++ [signature.1])
    (new : ¬a.signatures.any (fun s => s.keyId = signature.1.keyId) = true) :
    newKeys a (signature :: l) = newKeys b l + 1 := by
  have fresh : signature.1.keyId ∉ (a.signatures.map Signature.keyId).toFinset := by
    intro mem
    rw [List.mem_toFinset, mem_map] at mem
    obtain ⟨s, there, same⟩ := mem
    exact new (List.any_eq_true.mpr ⟨s, there, decide_eq_true same⟩)
  have keys : (b.signatures.map Signature.keyId).toFinset =
      insert signature.1.keyId (a.signatures.map Signature.keyId).toFinset := by
    rw [signatures]
    ext key
    simp
  have more : (insert signature.1.keyId (l.map fun s => s.1.keyId).toFinset) \ (a.signatures.map Signature.keyId).toFinset =
      insert signature.1.keyId ((l.map fun s => s.1.keyId).toFinset \ (b.signatures.map Signature.keyId).toFinset) := by
    rw [keys]
    ext key
    by_cases here : key = signature.1.keyId
    · simp only [here, Finset.mem_sdiff, Finset.mem_insert_self, true_and, iff_true]
      exact fresh
    · simp [here]
  rw [newKeys, map_cons, toFinset_cons, more, Finset.card_insert_of_notMem, newKeys]
  rw [keys]
  simp

theorem newKeys_le (signature : WireSignature) : newKeys a l ≤ newKeys a (signature :: l) := by
  rw [newKeys, newKeys, map_cons, toFinset_cons]
  exact Finset.card_le_card (Finset.sdiff_subset_sdiff (Finset.subset_insert ..) (Finset.Subset.refl _))

variable (zstd limits) in
/-- There is room for the keys that are new, in a file that is signed to the end of its content. -/
def RoomFor (raw : Bytes) (a : OpenBundle) (l : List WireSignature) : Prop :=
  newKeys a l = 0 ∨ EndsSigned zstd limits raw ∧ a.signatures.length + newKeys a l ≤ 64

theorem Signing.keeps {calls : List SignCall} (run : Signing zstd limits hash w l calls v) (found : w.get .bundle = some f)
    (opens : Opens zstd limits hash f.bytes a) (lasts : RoomFor zstd limits f.bytes a l) :
    ∀ call ∈ calls, call.Keeps zstd limits hash := by
  induction run generalizing f a with
  | nil w l => simp
  | @cons w v u signature l calls r run rest ih =>
      suffices both : SignCall.Keeps zstd limits hash ⟨w, signature, r, v⟩ ∧ ∀ call ∈ calls, call.Keeps zstd limits hash from
        List.forall_mem_cons.mpr both
      rcases appendSignature_ends found run with ⟨rfl, new, t, signed, there⟩ | ⟨e, rfl, same⟩
      · rw [countersign_of_opens opens] at signed
        by_cases old : a.signatures.any (fun s => s.keyId = signature.1.keyId) = true
        · rw [if_pos old] at signed
          cases signed
        rw [if_neg old] at signed
        cases signed
        have count := newKeys_new (l := l) (b := { a with signatures := a.signatures ++ [signature.1] }) rfl old
        obtain none | ⟨ends, room⟩ := lasts
        · omega
        have space : a.signatures.length < 64 := by omega
        obtain ⟨opens', ends'⟩ := opens.extended ends space signature
        refine ⟨⟨f, _, a, _, found, there, openBytes_ok.mpr opens, openBytes_ok.mpr opens', ?_⟩, ?_⟩
        · exact ⟨rfl, rfl, rfl, rfl, rfl, rfl⟩
        · refine ih there opens' (.inr ⟨ends', ?_⟩)
          rw [length_append, length_singleton]
          omega
      · refine ⟨same, ih (same.trans found) opens ?_⟩
        have fewer := newKeys_le (a := a) (l := l) signature
        obtain none | ⟨ends, room⟩ := lasts
        · exact .inl (by omega)
        · exact .inr ⟨ends, by omega⟩

theorem roomFor_of_keeps (found : w.get .bundle = some f) (opens : Opens zstd limits hash f.bytes a)
    (keeps : ∀ calls u, Signing zstd limits hash w l calls u → ∀ call ∈ calls, call.Keeps zstd limits hash) :
    RoomFor zstd limits f.bytes a l := by
  induction l generalizing w f a with
  | nil => exact .inl (by simp [newKeys])
  | cons signature l ih =>
      by_cases old : a.signatures.any (fun s => s.keyId = signature.1.keyId) = true
      · have refused := appendSignature_refused found ((countersign_of_opens opens).trans (if_pos old))
        have lasts := ih found opens fun calls u run call mem =>
          keeps _ u (.cons refused run) call (.tail _ mem)
        rw [RoomFor, newKeys_old old]
        exact lasts
      · have signed : countersign zstd limits hash f.bytes signature = .ok (fileWith hash f.bytes a signature) :=
          (countersign_of_opens opens).trans (if_neg old)
        obtain ⟨v, run⟩ := appendSignature_runs found signed
        obtain ⟨-, new, t, signed', there⟩ | ⟨e, impossible, -⟩ := appendSignature_ends found run
        · cases signed.symm.trans signed'
          have kept : SignCall.Keeps zstd limits hash ⟨w, signature, .ok (), v⟩ := keeps _ v (.cons run (.nil v l)) _ (.head _)
          obtain ⟨f', g, a', b, found', there', opened, opened', extends_⟩ := kept
          cases found.symm.trans found'
          cases there.symm.trans there'
          cases (openBytes_ok.mpr opens).symm.trans opened
          obtain ⟨ends, room⟩ := opens.of_extended (openBytes_ok.mp opened') extends_.signatures
          have later : RoomFor zstd limits (fileWith hash f.bytes a signature) b l :=
            ih (f := ⟨_, t⟩) (a := b) there (openBytes_ok.mp opened') fun calls u rest call mem => keeps _ u (.cons run rest) call (.tail _ mem)
          have count := newKeys_new (l := l) extends_.signatures old
          have length := congrArg List.length extends_.signatures
          rw [length_append, length_singleton] at length
          have shift : a.signatures.length + (newKeys b l + 1) = b.signatures.length + newKeys b l := by
            rw [length, Nat.add_right_comm, Nat.add_assoc]
          refine .inr ⟨ends, ?_⟩
          rw [count, shift]
          obtain none | ⟨-, room'⟩ := later
          · rw [none, length]
            exact room
          · exact room'
        · cases impossible

/-- Every run of calls keeps the file readable exactly when there is room for its new keys in
a file that is signed to the end of its content. -/
theorem appendSignature_keeps_iff (found : w.get .bundle = some f)
    (opened : openBytes zstd limits hash f.bytes = .ok a) (l : List WireSignature) :
    (∀ calls u, Signing zstd limits hash w l calls u → ∀ call ∈ calls, call.Keeps zstd limits hash) ↔
      RoomFor zstd limits f.bytes a l := by
  have opens := openBytes_ok.mp opened
  constructor
  · exact roomFor_of_keeps found opens
  · intro lasts calls u run
    exact run.keeps found opens lasts

deriving instance DecidableEq for Cursor

/-- A signature of the key `n`. -/
def signatureOf (n : UInt8) : WireSignature := ⟨⟨List.replicate 8 n, List.replicate 64 n⟩, rfl, rfl⟩

/-- A bundle of nothing that many have signed. -/
def manySigned (n : Nat) : OpenBundle :=
  ⟨⟨idleHeader 1, []⟩, (List.range n).map fun i => (signatureOf (UInt8.ofNat i)).1,
    (lengthHash (bundleMagic ++ writeHeader (idleHeader 1))).1⟩

/-- Its file. -/
def manySignedFile (n : Nat) : Bytes :=
  let body := bundleMagic ++ writeHeader (idleHeader 1)
  sealBundle lengthHash (body ++ writeList writeSignature (manySigned n).signatures) body.length (lengthHash body).1

/-- Two more signers find room behind the first. -/
theorem appendSignature_keeps_iff_two :
    (∀ calls u, Signing noZstd .default lengthHash (World.empty.put .bundle (manySignedFile 1) 0)
        [signatureOf 1, signatureOf 2] calls u → ∀ call ∈ calls, call.Keeps noZstd .default lengthHash) ↔
      RoomFor noZstd .default (manySignedFile 1) (manySigned 1) [signatureOf 1, signatureOf 2] :=
  appendSignature_keeps_iff (f := ⟨manySignedFile 1, 0⟩) rfl (by decide +kernel) _

/-- Up to sixty-four signatures are read, and the signed region is the content. -/
theorem manySigned_opens {n : Nat} (few : n ≤ 64) :
    Opens noZstd .default lengthHash (manySignedFile n) (manySigned n) ∧ EndsSigned noZstd .default (manySignedFile n) := by
  let header := writeHeader (idleHeader 1)
  have few' : (manySigned n).signatures.length ≤ 64 := by
    rw [manySigned, List.length_map, List.length_range]
    exact few
  have sized : ∀ s ∈ (manySigned n).signatures, s.Sized := by
    intro s mem
    obtain ⟨i, -, rfl⟩ := mem_map.mp mem
    exact (signatureOf _).2
  have alone : readContent noZstd .default () ⟨8, header⟩ = (.ok (⟨idleHeader 1, []⟩, ⟨8 + header.length, []⟩), ()) := by
    decide +kernel
  have read := composed_readContent.prolongs _ _ _ _ _ _ (writeList writeSignature (manySigned n).signatures) alone
  obtain ⟨d, block⟩ := readSignatures_written (p := 8 + header.length) few' sized
  have region : (bundleMagic ++ header ++ writeList writeSignature (manySigned n).signatures).take
      (bundleMagic ++ header).length = bundleMagic ++ header := List.take_left' rfl
  have small : (bundleMagic ++ header).length < 2 ^ 64 := by decide +kernel
  constructor
  · refine opens_sealBundle rfl ?_ small ?_ read block
    · exact (List.prefix_append (bundleMagic ++ header) _).length_le
    · rw [region]
  · rw [EndsSigned, manySignedFile, sealBundle_contentLen (lengthHash _).2 small]
    refine contentEnd_of_read (Eq.trans ?_ read)
    rw [(sealBundle_parts _ (lengthHash _).2).2.1]
    rfl

/-- The sixty-fifth signature makes a file that nobody opens. -/
theorem signature_closes : openBytes noZstd .default lengthHash (manySignedFile 64) = .ok (manySigned 64) ∧
    ∃ new, countersign noZstd .default lengthHash (manySignedFile 64) (signatureOf 64) = .ok new ∧
      ∀ b, openBytes noZstd .default lengthHash new ≠ .ok b := by
  obtain ⟨opens, ends⟩ := manySigned_opens (Nat.le_refl 64)
  refine ⟨openBytes_ok.mpr opens, fileWith lengthHash (manySignedFile 64) (manySigned 64) (signatureOf 64), ?_, ?_⟩
  · have fresh : ¬(manySigned 64).signatures.any (fun s => s.keyId = (signatureOf 64).1.keyId) = true := by decide
    exact (countersign_of_opens opens).trans (if_neg fresh)
  · exact opens.full ends (by simp [manySigned]) (signatureOf 64)

end Calls
end Cavs
