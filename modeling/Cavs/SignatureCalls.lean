import Cavs.SignatureRead
import Cavs.SignatureSpec
import Mathlib.Algebra.Order.BigOperators.Group.List
import Mathlib.Data.List.ModifyLast

/-!
# Calls on a builder of signatures

A signature depends on what each entry was told and on its bytes, not on the pieces they
came in. It is read back exactly when the counts are within their caps, entries that are no
files got no bytes and no symlink target is empty.
-/
namespace Cavs.Signature
open FileProg (Bytes)

inductive BuilderCall where
  | beginEntry (path : String) (executable : Bool) (symlinkTarget : Option String)
  | entryKind (kind : EntryKind)
  | append (data : Bytes)

/-- An entry with its bytes. -/
structure EntryContent where
  path : String
  executable : Bool
  symlinkTarget : Option String
  kind : EntryKind
  content : Bytes

def EntryContent.entry (e : EntryContent) (i : Nat) : SignatureEntry :=
  ⟨UInt32.ofNat i, e.path, e.kind, UInt64.ofNat e.content.length, e.executable, e.symlinkTarget⟩

/-- What calls tell of the entries. -/
def tell (l : List EntryContent) : BuilderCall → List EntryContent
  | .beginEntry path executable symlinkTarget => l ++ [⟨path, executable, symlinkTarget, .file, []⟩]
  | .entryKind kind => l.modifyLast fun e => { e with kind }
  | .append data => l.modifyLast fun e => { e with content := e.content ++ data }

def entriesOf (calls : List BuilderCall) : List EntryContent := calls.foldl tell []

section Calls
variable (hashChunk : Bytes → ChunkHash)

/-- Bytes for no entry end the program. -/
def SignatureBuilder.call (b : SignatureBuilder) : BuilderCall → Option SignatureBuilder
  | .beginEntry path executable symlinkTarget => some (b.beginEntry hashChunk path executable symlinkTarget)
  | .entryKind kind => some (b.entryKind kind)
  | .append data => if b.entries = [] then none else some (b.append hashChunk data)

def SignatureBuilder.calls (b : SignatureBuilder) (calls : List BuilderCall) : Option SignatureBuilder :=
  calls.foldlM (SignatureBuilder.call hashChunk) b

def EntryContent.rows (size : Nat) (e : EntryContent) (i : Nat) : List SignatureBlockHash :=
  rowsFrom hashChunk (UInt32.ofNat i) 0 (cut size e.content)

/-- The signature of entries with their bytes. -/
def signatureOf (kind : SignatureKind) (blockSize : UInt32) (profile label : String) (l : List EntryContent) :
    CavsSignature :=
  let blocks := l.zipIdx.flatMap fun x => x.1.rows hashChunk blockSize.toNat x.2
  { kind
    createdAtUnixMs := 0
    sourceLabel := label
    sourceSize := UInt64.ofNat (l.flatMap EntryContent.content).length
    sourceBlake3 := some (hashChunk (l.flatMap EntryContent.content))
    chunkerProfile := profile
    blockSize
    entries := l.zipIdx.map fun x => x.1.entry x.2
    blocks
    merkleRoot := merkleRoot hashChunk (blocks.map SignatureBlockHash.strongBlake3) }

end Calls

section Held
variable {hashChunk : Bytes → ChunkHash} {kind : SignatureKind} {blockSize : UInt32} {profile : String}
  {l init : List EntryContent} {e : EntryContent} {b f : SignatureBuilder}

/-- A builder that has no open block and holds the entries of `l`. -/
structure Sealed (hashChunk : Bytes → ChunkHash) (kind : SignatureKind) (blockSize : UInt32) (profile : String)
    (l : List EntryContent) (b : SignatureBuilder) : Prop where
  entries : b.entries = l.zipIdx.map fun x => x.1.entry x.2
  blocks : b.blocks = l.zipIdx.flatMap fun x => x.1.rows hashChunk blockSize.toNat x.2
  content : b.content = l.flatMap EntryContent.content
  totalSize : b.totalSize = UInt64.ofNat b.content.length
  kind : b.kind = kind
  profile : b.profile = profile
  blockSize : b.blockSize = blockSize
  buf : b.buf = []

/-- A builder in the middle of an entry, or in front of the first. -/
inductive Held (hashChunk : Bytes → ChunkHash) (kind : SignatureKind) (blockSize : UInt32) (profile : String) :
    List EntryContent → SignatureBuilder → Prop
  | idle {b : SignatureBuilder} : Sealed hashChunk kind blockSize profile [] b → Held hashChunk kind blockSize profile [] b
  | reading {init : List EntryContent} {e : EntryContent} {f b : SignatureBuilder} : Sealed hashChunk kind blockSize profile init f →
      Reading hashChunk f (e.entry init.length) e.content b → b.profile = f.profile →
      Held hashChunk kind blockSize profile (init ++ [e]) b

theorem Held.flush (h : Held hashChunk kind blockSize profile l b) :
    Sealed hashChunk kind blockSize profile l (b.flushBlock hashChunk) := by
  obtain ⟨same, none⟩ := flushBlock_same hashChunk b
  unfold SameEntries at same
  cases h with
  | idle sealed_ =>
      rw [SignatureBuilder.flushBlock, if_pos sealed_.buf]
      exact sealed_
  | @reading init e f _ sealed_ read profile_ =>
      obtain ⟨full, filling, all⟩ := read.filling
      have numbered : (init ++ [e]).zipIdx = init.zipIdx ++ [(e, init.length)] := by
        rw [List.zipIdx_append, Nat.zero_add]
        rfl
      constructor
      · rw [congrArg SignatureBuilder.entries same, numbered, List.map_append, ← sealed_.entries]
        exact read.entries
      · rw [flushBlock_blocks filling, all, sealed_.blocks, numbered, List.flatMap_append, List.flatMap_singleton,
          read.blockSize, sealed_.blockSize]
        rfl
      · rw [congrArg SignatureBuilder.content same, List.flatMap_append, List.flatMap_singleton, ← sealed_.content]
        exact read.content
      · rw [congrArg SignatureBuilder.content same, congrArg SignatureBuilder.totalSize same]
        dsimp only
        rw [read.content, read.totalSize, sealed_.totalSize, List.length_append, UInt64.ofNat_add]
      · exact (congrArg SignatureBuilder.kind same).trans (read.kind.trans sealed_.kind)
      · exact (congrArg SignatureBuilder.profile same).trans (profile_.trans sealed_.profile)
      · exact (congrArg SignatureBuilder.blockSize same).trans (read.blockSize.trans sealed_.blockSize)
      · exact none

theorem held_start (kind : SignatureKind) (requested : UInt32) (profile : String) :
    Held hashChunk kind (clamped requested) profile [] (SignatureBuilder.start kind requested profile) :=
  .idle ⟨rfl, rfl, rfl, rfl, rfl, rfl, rfl, rfl⟩

theorem Held.beginEntry (size : 0 < blockSize.toNat) (h : Held hashChunk kind blockSize profile l b) (path : String)
    (executable : Bool) (target : Option String) : Held hashChunk kind blockSize profile
      (l ++ [⟨path, executable, target, .file, []⟩]) (b.beginEntry hashChunk path executable target) := by
  have sealed_ := h.flush
  have numbered : (b.flushBlock hashChunk).entries.length = l.length := by
    rw [sealed_.entries, List.length_map, List.length_zipIdx]
  refine .reading sealed_ ⟨⟨[], ⟨?_, (List.append_nil _).symm, nofun, ?_, rfl⟩, sealed_.buf⟩, ?_,
    (List.append_nil _).symm, (UInt64.add_zero _).symm, rfl, rfl⟩ rfl
  · rw [← numbered]
    exact congrArg (fun o : Option SignatureEntry => (o.map SignatureEntry.entryId).getD 0) List.getLast?_concat
  · change (b.flushBlock hashChunk).buf.length < (b.flushBlock hashChunk).blockSize.toNat
    rw [sealed_.buf, sealed_.blockSize]
    exact size
  · rw [← numbered]
    rfl

theorem Held.entryKind (h : Held hashChunk kind blockSize profile l b) (k : EntryKind) :
    Held hashChunk kind blockSize profile (l.modifyLast fun e => { e with kind := k }) (b.entryKind k) := by
  cases h with
  | idle sealed_ =>
      have none : b.entries = [] := sealed_.entries
      refine .idle ⟨?_, sealed_.blocks, sealed_.content, sealed_.totalSize, sealed_.kind, sealed_.profile,
        sealed_.blockSize, sealed_.buf⟩
      rw [SignatureBuilder.entryKind, none]
      rfl
  | @reading init e f _ sealed_ read profile_ =>
      rw [List.modifyLast_concat]
      obtain ⟨full, ⟨entry, blocks, sized, room, offset⟩, all⟩ := read.filling
      have amended : (b.entryKind k).entries =
          f.entries ++ [{ EntryContent.entry { e with kind := k } init.length with
            size := UInt64.ofNat e.content.length }] := by
        rw [SignatureBuilder.entryKind, read.entries, amendLast_snoc]
        rfl
      refine .reading sealed_ ⟨⟨full, ⟨?_, blocks, sized, room, offset⟩, all⟩, amended, read.content, read.totalSize,
        read.blockSize, read.kind⟩ profile_
      rw [amended, List.getLast?_concat]
      rfl

theorem append_profile (b : SignatureBuilder) (data : Bytes) : (b.append hashChunk data).profile = b.profile := by
  have fill : ∀ (fuel : Nat) (b : SignatureBuilder) (data : Bytes), (b.fill hashChunk fuel data).profile = b.profile := by
    intro fuel
    induction fuel with
    | zero => intro b data; rfl
    | succ fuel ih =>
        intro b data
        rw [SignatureBuilder.fill]
        split
        · rfl
        · rw [ih]
          split <;> rfl
  exact fill _ _ _

theorem Held.append (h : Held hashChunk kind blockSize profile l b) (some : b.entries ≠ []) (data : Bytes) :
    Held hashChunk kind blockSize profile (l.modifyLast fun e => { e with content := e.content ++ data })
      (b.append hashChunk data) := by
  cases h with
  | idle sealed_ => exact absurd sealed_.entries some
  | @reading init e f _ sealed_ read profile_ =>
      rw [List.modifyLast_concat]
      have more := read.append data
      refine .reading sealed_ ?_ ((append_profile b data).trans profile_)
      exact ⟨more.filling, more.entries, more.content, more.totalSize, more.blockSize, more.kind⟩

theorem Held.calls (size : 0 < blockSize.toNat) {calls : List BuilderCall} {b' : SignatureBuilder}
    (h : Held hashChunk kind blockSize profile l b) (ran : b.calls hashChunk calls = some b') :
    Held hashChunk kind blockSize profile (calls.foldl tell l) b' := by
  induction calls generalizing l b with
  | nil =>
      cases ran
      exact h
  | cons call rest ih =>
      rw [SignatureBuilder.calls, List.foldlM_cons] at ran
      obtain ⟨b₁, first, later⟩ := Option.bind_eq_some_iff.mp ran
      cases call with
      | beginEntry path executable target =>
          cases first
          exact ih (h.beginEntry size path executable target) later
      | entryKind k =>
          cases first
          exact ih (h.entryKind k) later
      | append data =>
          rw [SignatureBuilder.call] at first
          split at first
          · cases first
          · rename_i some
            cases first
            exact ih (h.append some data) later

theorem Held.finish (h : Held hashChunk kind blockSize profile l b) (label : String) :
    b.finish hashChunk label = signatureOf hashChunk kind blockSize profile label l := by
  have sealed_ := h.flush
  rw [SignatureBuilder.finish, signatureOf, sealed_.entries, sealed_.blocks, sealed_.totalSize, sealed_.content, sealed_.kind, sealed_.profile, sealed_.blockSize]

/-- What is signed depends on the entries and their bytes. -/
theorem finish_eq {calls : List BuilderCall} {requested : UInt32} (label : String)
    (ran : (SignatureBuilder.start kind requested profile).calls hashChunk calls = some b) :
    b.finish hashChunk label = signatureOf hashChunk kind (clamped requested) profile label (entriesOf calls) := by
  have size : 0 < (clamped requested).toNat := Nat.lt_of_lt_of_le (by decide) (clamped_bounds requested).1
  exact ((held_start kind requested profile).calls size ran).finish label

theorem Held.entries_ne (h : Held hashChunk kind blockSize profile (init ++ [e]) b) : b.entries ≠ [] := by
  have entries := h.flush.entries
  rw [congrArg SignatureBuilder.entries (flushBlock_same hashChunk b).1] at entries
  intro none
  rw [none] at entries
  simp at entries

theorem Held.appendAll (h : Held hashChunk kind blockSize profile (init ++ [e]) b) (pieces : List Bytes) :
    Held hashChunk kind blockSize profile (init ++ [{ e with content := e.content ++ pieces.flatten }])
      (pieces.foldl (SignatureBuilder.append hashChunk) b) := by
  induction pieces generalizing e b with
  | nil => simpa using h
  | cons piece rest ih =>
      have first := h.append h.entries_ne piece
      rw [List.modifyLast_concat] at first
      have more := ih first
      rwa [List.append_assoc] at more

/-- An entry of a tree with its bytes. -/
def contentOf : RelPath × DiskNode → EntryContent
  | (rel, .symlink target) => ⟨rel.spelled, false, some (String.ofList (lossy target)), .symlink, []⟩
  | (rel, .directory) => ⟨rel.spelled, false, none, .directory, []⟩
  | (rel, .file content executable) => ⟨rel.spelled, executable, none, .file, content⟩

theorem Held.signNode (size : 0 < blockSize.toNat) (h : Held hashChunk kind blockSize profile l b) (x : RelPath × DiskNode) :
    Held hashChunk kind blockSize profile (l ++ [contentOf x]) (signNode hashChunk b x) := by
  match x with
  | (rel, .symlink target) =>
      have named := (h.beginEntry size rel.spelled false (some (String.ofList (lossy target)))).entryKind .symlink
      rwa [List.modifyLast_concat] at named
  | (rel, .directory) =>
      have named := (h.beginEntry size rel.spelled false none).entryKind .directory
      rwa [List.modifyLast_concat] at named
  | (rel, .file content executable) =>
      have read := (h.beginEntry size rel.spelled executable none).appendAll (cut readSize content)
      rwa [cut_flatten (by decide)] at read

theorem Held.signAll (size : 0 < blockSize.toNat) (h : Held hashChunk kind blockSize profile l b)
    (nodes : List (RelPath × DiskNode)) : Held hashChunk kind blockSize profile (l ++ nodes.map contentOf)
      (nodes.foldl (Signature.signNode hashChunk) b) := by
  induction nodes generalizing l b with
  | nil => simpa using h
  | cons x rest ih =>
      have more := ih (h.signNode size x)
      rwa [List.append_assoc] at more

theorem signDir_eq (root : DiskTree) (requested : UInt32) (label : String) :
    signDir hashChunk root requested label =
      signatureOf hashChunk .directoryContainer (clamped requested) "fixed" label (root.listing.map contentOf) := by
  have size : 0 < (clamped requested).toNat := Nat.lt_of_lt_of_le (by decide) (clamped_bounds requested).1
  exact ((held_start .directoryContainer requested "fixed").signAll size root.listing).finish label

/-- What a signature of a tree says, field by field. -/
structure Signs (hashChunk : Bytes → ChunkHash) (size : Nat) (listing : List (RelPath × DiskNode))
    (s : CavsSignature) : Prop where
  kind : s.kind = .directoryContainer
  entries : s.entries = listing.zipIdx.map fun x => entryOf x.2 x.1
  blocks : s.blocks = listing.zipIdx.flatMap fun x => rowsOf hashChunk size x.2 x.1
  sourceBlake3 : s.sourceBlake3 = some (hashChunk (listing.flatMap fun x => x.2.content))
  sourceSize : s.sourceSize = UInt64.ofNat (listing.flatMap fun x => x.2.content).length
  blockSize : s.blockSize.toNat = size
  merkleRoot : s.merkleRoot = merkleRoot hashChunk (s.blocks.map SignatureBlockHash.strongBlake3)

theorem entry_contentOf (i : Nat) (x : RelPath × DiskNode) : (contentOf x).entry i = entryOf i x := by
  obtain ⟨rel, node⟩ := x
  cases node <;> rfl

theorem content_contentOf (x : RelPath × DiskNode) : (contentOf x).content = x.2.content := by
  obtain ⟨rel, node⟩ := x
  cases node <;> rfl

theorem signDir_signs (hashChunk : Bytes → ChunkHash) (root : DiskTree) (blockSize : UInt32) (label : String) :
    Signs hashChunk (clamped blockSize).toNat root.listing (signDir hashChunk root blockSize label) := by
  have contents : (root.listing.map contentOf).flatMap EntryContent.content = root.listing.flatMap fun x => x.2.content := by
    rw [List.flatMap_map]
    simp only [content_contentOf]
  rw [signDir_eq]
  refine ⟨rfl, ?_, ?_, by rw [← contents]; rfl, by rw [← contents]; rfl, rfl, rfl⟩
  · dsimp only [signatureOf]
    rw [List.zipIdx_map, List.map_map]
    congr 1
    funext x
    exact entry_contentOf x.2 x.1
  · dsimp only [signatureOf]
    rw [List.zipIdx_map, List.flatMap_map]
    congr 1
    funext x
    exact congrArg (fun b => rowsFrom hashChunk (UInt32.ofNat x.2) 0 (cut (clamped blockSize).toNat b)) (content_contentOf x.1)

theorem signDir_named (root : DiskTree) (blockSize : UInt32) (label : String) :
    ∀ e ∈ (signDir hashChunk root blockSize label).entries, e.symlinkTarget ≠ some "" := by
  intro e mem empty
  rw [(signDir_signs hashChunk root blockSize label).entries] at mem
  obtain ⟨⟨⟨rel, node⟩, i⟩, there, rfl⟩ := List.mem_map.mp mem
  have listed := DiskTree.mem_listing.mp (List.fst_mem_of_mem_zipIdx there)
  cases node with
  | file content executable => cases empty
  | directory => cases empty
  | symlink target =>
      have blank : String.ofList (lossy target) = String.ofList [] := Option.some.inj empty
      exact lossy_ne_nil ((root.sound.each listed).2 target rfl) (String.ofList_injective blank)

end Held

section Fit
variable {hashChunk : Bytes → ChunkHash} {ids : List UInt32} {size : Nat} {covered : Coverage} {id : UInt32}
  {rest : List SignatureBlockHash}

/-- The blocks of one entry reach up to `stop`. -/
def reach (covered : Coverage) (id : UInt32) (stop : Nat) : Coverage := fun i => if i = id then stop else covered i

theorem reach_reach (covered : Coverage) (id : UInt32) (a b : Nat) :
    reach (reach covered id a) id b = reach covered id b := by
  funext i
  unfold reach
  split <;> rfl

theorem reach_self (h : covered id = n) : reach covered id n = covered := by
  funext i
  unfold reach
  split
  · rename_i same
    rw [same, h]
  · rfl

/-- Rows from an offset on fit when the rest does from where they stop. -/
theorem rowsFrom_fit {pieces : List Bytes} {offset : UInt64} (known : id ∈ ids) (word : size < 2 ^ 32)
    (sized : ∀ p ∈ pieces, p ≠ [] ∧ p.length ≤ size) (near : offset.toNat + pieces.flatten.length < 2 ^ 64)
    (start : covered id = offset.toNat) :
    (BlocksFit ids size covered (rowsFrom hashChunk id offset pieces ++ rest) ↔
      BlocksFit ids size (reach covered id (offset.toNat + pieces.flatten.length)) rest) ∧
    coverage covered (rowsFrom hashChunk id offset pieces ++ rest) =
      coverage (reach covered id (offset.toNat + pieces.flatten.length)) rest := by
  induction pieces generalizing offset covered with
  | nil =>
      rw [List.flatten_nil, List.length_nil, Nat.add_zero, reach_self start]
      exact ⟨Iff.rfl, rfl⟩
  | cons p pieces ih =>
      obtain ⟨some, short⟩ := sized p List.mem_cons_self
      rw [List.flatten_cons, List.length_append] at near ⊢
      have len : (UInt32.ofNat p.length).toNat = p.length := UInt32.toNat_ofNat_of_lt' (short.trans_lt word)
      have next : (offset + (UInt32.ofNat p.length).toUInt64).toNat = offset.toNat + p.length := by
        rw [UInt64.toNat_add, UInt32.toNat_toUInt64, len]
        omega
      have step := @ih (reach covered id (offset.toNat + p.length)) (offset + (UInt32.ofNat p.length).toUInt64)
        (fun q mem => sized q (List.mem_cons_of_mem p mem)) (by rw [next]; omega) (by
          rw [next, reach, if_pos rfl])
      rw [next, reach_reach, Nat.add_assoc] at step
      rw [rowsFrom, List.cons_append, BlocksFit, coverage]
      dsimp only
      rw [len]
      refine ⟨?_, step.2⟩
      rw [← step.1]
      constructor
      · exact fun fits => fits.2.2.2
      · exact fun fits => ⟨known, ⟨(List.length_pos_iff.mpr some).ne', short⟩, start.symm, fits⟩

variable {l : List EntryContent} {k : Nat}

theorem cut_sized (pos : 0 < size) (b : Bytes) : ∀ p ∈ cut size b, p ≠ [] ∧ p.length ≤ size :=
  fun _ mem => mem_cutFrom pos mem

theorem ofNat_inj32 {i j : Nat} (small : i < 2 ^ 32) (small' : j < 2 ^ 32) (same : UInt32.ofNat i = UInt32.ofNat j) :
    i = j := by
  have numbers := congrArg UInt32.toNat same
  rwa [UInt32.toNat_ofNat_of_lt' small, UInt32.toNat_ofNat_of_lt' small'] at numbers

/-- The blocks of numbered entries fit, and reach the end of each. -/
theorem rows_fit (pos : 0 < size) (word : size < 2 ^ 32)
    (known : ∀ j, k ≤ j → j < k + l.length → UInt32.ofNat j ∈ ids) (few : k + l.length ≤ 2 ^ 32)
    (near : ∀ e ∈ l, e.content.length < 2 ^ 64)
    (clear : ∀ j, k ≤ j → j < k + l.length → covered (UInt32.ofNat j) = 0) :
    BlocksFit ids size covered ((l.zipIdx k).flatMap fun x => x.1.rows hashChunk size x.2) ∧
    (∀ i, (∀ j, k ≤ j → j < k + l.length → i ≠ UInt32.ofNat j) →
      coverage covered ((l.zipIdx k).flatMap fun x => x.1.rows hashChunk size x.2) i = covered i) ∧
    ∀ x ∈ l.zipIdx k, coverage covered ((l.zipIdx k).flatMap fun x => x.1.rows hashChunk size x.2) (UInt32.ofNat x.2) =
      x.1.content.length := by
  induction l generalizing k covered with
  | nil => exact ⟨trivial, fun _ _ => rfl, nofun⟩
  | cons e l ih =>
      rw [List.length_cons] at known few clear
      have whole : (cut size e.content).flatten = e.content := cut_flatten pos e.content
      have own := near e List.mem_cons_self
      have first := @rowsFrom_fit hashChunk ids size covered (UInt32.ofNat k)
        ((l.zipIdx (k + 1)).flatMap fun x => x.1.rows hashChunk size x.2) (cut size e.content) 0
        (known k (Nat.le_refl _) (by omega)) word (cut_sized pos _) (by rw [whole]; simpa using own)
        (clear k (Nat.le_refl _) (by omega))
      have zero : (0 : UInt64).toNat = 0 := rfl
      rw [whole, zero, Nat.zero_add] at first
      have apart : ∀ j, k + 1 ≤ j → j < k + 1 + l.length → UInt32.ofNat j ≠ UInt32.ofNat k := fun j below above same => by
        have := ofNat_inj32 (by omega) (by omega) same
        omega
      obtain ⟨fits, others, reached⟩ := @ih (reach covered (UInt32.ofNat k) e.content.length) (k + 1)
        (fun j below above => known j (by omega) (by omega)) (by omega)
        (fun x mem => near x (List.mem_cons_of_mem e mem)) (fun j below above => by
          rw [reach, if_neg (apart j below above)]
          exact clear j (by omega) (by omega))
      rw [List.zipIdx_cons, List.flatMap_cons]
      change BlocksFit ids size covered (rowsFrom hashChunk _ 0 (cut size e.content) ++ _) ∧ _
      refine ⟨first.1.mpr fits, ?_, ?_⟩
      · intro i other
        refine (congrFun first.2 i).trans ((others i fun j below above => other j (by omega) ?_).trans ?_)
        · rw [List.length_cons]
          omega
        · rw [reach, if_neg (other k (Nat.le_refl _) (by rw [List.length_cons]; omega))]
      · refine List.forall_mem_cons.mpr ⟨?_, fun x mem => (congrFun first.2 _).trans (reached x mem)⟩
        refine (congrFun first.2 _).trans ((others _ fun j below above => (apart j below above).symm).trans ?_)
        rw [reach, if_pos rfl]

theorem rowsFrom_length (id : UInt32) (offset : UInt64) (pieces : List Bytes) :
    (rowsFrom hashChunk id offset pieces).length = pieces.length := by
  induction pieces generalizing offset with
  | nil => rfl
  | cons p pieces ih => exact congrArg (· + 1) (ih _)

/-- The number of blocks that entries are cut into. -/
def blockCount (size : Nat) (l : List EntryContent) : Nat := (l.map fun e => (cut size e.content).length).sum

theorem rows_length (k : Nat) : ((l.zipIdx k).flatMap fun x => x.1.rows hashChunk size x.2).length = blockCount size l := by
  induction l generalizing k with
  | nil => rfl
  | cons e l ih =>
      have count : blockCount size (e :: l) = (cut size e.content).length + blockCount size l := rfl
      rw [List.zipIdx_cons, List.flatMap_cons, List.length_append, ih, count]
      exact congrArg (· + blockCount size l) (rowsFrom_length _ _ _)

theorem content_length_le (pos : 0 < size) {e : EntryContent} (mem : e ∈ l) : e.content.length ≤ blockCount size l * size := by
  have pieces : ∀ ps : List Bytes, (∀ p ∈ ps, p.length ≤ size) → ps.flatten.length ≤ ps.length * size := by
    intro ps
    induction ps with
    | nil => exact fun _ => Nat.zero_le _
    | cons p ps ih =>
        intro sized
        have first := sized p List.mem_cons_self
        have later := ih fun q mem => sized q (List.mem_cons_of_mem p mem)
        rw [List.flatten_cons, List.length_append, List.length_cons, Nat.succ_mul]
        omega
  have own : (cut size e.content).length ≤ blockCount size l :=
    List.le_sum_of_mem (List.mem_map_of_mem mem)
  calc e.content.length = (cut size e.content).flatten.length := by rw [cut_flatten pos]
    _ ≤ (cut size e.content).length * size := pieces _ fun p there => (cut_sized pos _ p there).2
    _ ≤ blockCount size l * size := Nat.mul_le_mul_right _ own

end Fit

section Whole
variable {hashChunk : Bytes → ChunkHash} {kind : SignatureKind} {blockSize : UInt32} {profile label : String}
  {l : List EntryContent}

/-- Texts of at most 64 KiB. -/
structure ShortTexts (profile label : String) (l : List EntryContent) : Prop where
  profile : (strBytes profile).length ≤ 2 ^ 16
  label : (strBytes label).length ≤ 2 ^ 16
  paths : ∀ e ∈ l, (strBytes e.path).length ≤ 2 ^ 16
  targets : ∀ e ∈ l, (strBytes (e.symlinkTarget.getD "")).length ≤ 2 ^ 16

/-- Entries whose signature is read back: not too many of them or of their blocks, no empty
symlink target, and bytes for files only. -/
structure Portable (size : Nat) (l : List EntryContent) : Prop where
  fewEntries : l.length ≤ maxEntries
  fewBlocks : blockCount size l ≤ maxBlocks
  named : ∀ e ∈ l, e.symlinkTarget ≠ some ""
  bare : ∀ e ∈ l, e.kind ≠ .file → e.content = []

theorem entries_fit (short : ShortTexts profile label l) (few : l.length ≤ maxEntries) :
    EntriesFit [] (l.zipIdx.map fun x => x.1.entry x.2) := by
  have numbered : ∀ (l : List EntryContent) (k : Nat) (seen : List UInt32), k + l.length ≤ 2 ^ 32 →
      (∀ e ∈ l, (strBytes e.path).length ≤ 2 ^ 16 ∧ (strBytes (e.symlinkTarget.getD "")).length ≤ 2 ^ 16) →
      (∀ i ∈ seen, i.toNat < k) → EntriesFit seen ((l.zipIdx k).map fun x => x.1.entry x.2) := by
    intro l
    induction l with
    | nil => exact fun _ _ _ _ _ => trivial
    | cons e l ih =>
        intro k seen room texts below
        rw [List.length_cons] at room
        have index : (UInt32.ofNat k).toNat = k := UInt32.toNat_ofNat_of_lt' (by omega : k < 2 ^ 32)
        obtain ⟨path, target⟩ := texts e List.mem_cons_self
        refine ⟨fun mem => ?_, path, target, ih (k + 1) _ (by omega) (fun x mem => texts x (List.mem_cons_of_mem e mem)) ?_⟩
        · have early : (UInt32.ofNat k).toNat < k := below _ mem
          omega
        · refine List.forall_mem_cons.mpr ⟨?_, fun i mem => (below i mem).trans (Nat.lt_succ_self k)⟩
          change (UInt32.ofNat k).toNat < k + 1
          omega
  have cap : maxEntries = 2 ^ 24 := rfl
  exact numbered l 0 [] (by omega) (fun e mem => ⟨short.paths e mem, short.targets e mem⟩) nofun

/-- A signature fits when the entries it was made of do. -/
theorem signatureOf_fits (size : minBlockSize.toNat ≤ blockSize.toNat ∧ blockSize.toNat ≤ maxBlockSize.toNat)
    (short : ShortTexts profile label l) :
    (signatureOf hashChunk kind blockSize profile label l).Fits hashChunk ↔
      l.length ≤ maxEntries ∧ blockCount blockSize.toNat l ≤ maxBlocks ∧ ∀ e ∈ l, e.kind ≠ .file → e.content = [] := by
  have low : minBlockSize.toNat = 1024 := rfl
  have high : maxBlockSize.toNat = 67108864 := rfl
  have pos : 0 < blockSize.toNat := by omega
  have entryCount : (signatureOf hashChunk kind blockSize profile label l).entries.length = l.length := by
    rw [signatureOf, List.length_map, List.length_zipIdx]
  have blockCount_ : (signatureOf hashChunk kind blockSize profile label l).blocks.length = blockCount blockSize.toNat l :=
    rows_length 0
  -- Within the caps no count of 32 bits and no offset of 64 bits wraps.
  have rows (few : l.length ≤ maxEntries) (few' : blockCount blockSize.toNat l ≤ maxBlocks) :
      (∀ e ∈ l, e.content.length < 2 ^ 64) ∧
      BlocksFit ((signatureOf hashChunk kind blockSize profile label l).entries.map SignatureEntry.entryId) blockSize.toNat
        (fun _ => 0) (signatureOf hashChunk kind blockSize profile label l).blocks ∧
      ∀ x ∈ l.zipIdx, coverage (fun _ => 0) (signatureOf hashChunk kind blockSize profile label l).blocks
        (UInt32.ofNat x.2) = x.1.content.length := by
    have cap : maxEntries = 2 ^ 24 := rfl
    have near : ∀ e ∈ l, e.content.length < 2 ^ 64 := fun e mem =>
      calc e.content.length ≤ blockCount blockSize.toNat l * blockSize.toNat := content_length_le pos mem
        _ ≤ maxBlocks * maxBlockSize.toNat := Nat.mul_le_mul few' size.2
        _ < 2 ^ 64 := by decide
    have known : ∀ j, 0 ≤ j → j < 0 + l.length → UInt32.ofNat j ∈
        (signatureOf hashChunk kind blockSize profile label l).entries.map SignatureEntry.entryId := by
      intro j _ within
      rw [Nat.zero_add] at within
      have mem : (l[j], j) ∈ l.zipIdx := List.mem_zipIdx_iff_getElem?.mpr (List.getElem?_eq_getElem within)
      exact List.mem_map.mpr ⟨_, List.mem_map_of_mem mem, rfl⟩
    obtain ⟨fits, -, reached⟩ := @rows_fit hashChunk _ blockSize.toNat (fun _ => 0) l 0 pos (by omega) known (by omega) near
      fun _ _ _ => rfl
    exact ⟨near, fits, reached⟩
  have covers (few : l.length ≤ maxEntries) (few' : blockCount blockSize.toNat l ≤ maxBlocks) {e : EntryContent} {i : Nat}
      (mem : (e, i) ∈ l.zipIdx) :
      Covers (coverage (fun _ => 0) (signatureOf hashChunk kind blockSize profile label l).blocks) (e.entry i) ↔
        (e.kind ≠ .file → e.content = []) := by
    obtain ⟨near, -, reached⟩ := rows few few'
    have own : (UInt64.ofNat e.content.length).toNat = e.content.length :=
      UInt64.toNat_ofNat_of_lt' (near e (List.fst_mem_of_mem_zipIdx mem))
    change coverage _ _ (UInt32.ofNat i) = (if e.kind = .file then (UInt64.ofNat e.content.length).toNat else 0) ↔ _
    rw [reached _ mem, own]
    split
    · rename_i file
      exact iff_of_true rfl fun other => absurd file other
    · rename_i other
      rw [List.length_eq_zero_iff]
      exact ⟨fun none _ => none, fun none => none other⟩
  constructor
  · intro fits
    have few := entryCount ▸ fits.fewEntries
    have few' := blockCount_ ▸ fits.fewBlocks
    refine ⟨few, few', fun e mem => ?_⟩
    obtain ⟨i, within, rfl⟩ := List.getElem_of_mem mem
    have there : (l[i], i) ∈ l.zipIdx := List.mem_zipIdx_iff_getElem?.mpr (List.getElem?_eq_getElem within)
    exact (covers few few' there).mp (fits.covers _ (List.mem_map_of_mem there))
  · rintro ⟨few, few', bare⟩
    refine ⟨size, short.label, short.profile, entryCount ▸ few, entries_fit short few, blockCount_ ▸ few', (rows few few').2.1,
      fun x mem => ?_, rfl⟩
    obtain ⟨⟨e, i⟩, there, rfl⟩ := List.mem_map.mp mem
    exact (covers few few' there).mpr (bare e (List.fst_mem_of_mem_zipIdx there))

theorem signatureOf_readBack : (signatureOf hashChunk kind blockSize profile label l).readBack =
    signatureOf hashChunk kind blockSize profile label l ↔ ∀ e ∈ l, e.symlinkTarget ≠ some "" := by
  constructor
  · intro same e mem
    obtain ⟨i, within, rfl⟩ := List.getElem_of_mem mem
    have there : (l[i], i) ∈ l.zipIdx := List.mem_zipIdx_iff_getElem?.mpr (List.getElem?_eq_getElem within)
    exact named_of_readBack same _ (List.mem_map_of_mem there)
  · intro named
    refine readBack_of_named fun x mem => ?_
    obtain ⟨⟨e, i⟩, there, rfl⟩ := List.mem_map.mp mem
    exact named e (List.fst_mem_of_mem_zipIdx there)

/-- A signature that was built is read back exactly when its entries are portable. -/
theorem decode_built_iff {requested : UInt32} {calls : List BuilderCall} {b : SignatureBuilder}
    (ran : (SignatureBuilder.start kind requested profile).calls hashChunk calls = some b)
    (short : ShortTexts profile label (entriesOf calls)) :
    decode hashChunk (encode hashChunk (b.finish hashChunk label)) = .ok (b.finish hashChunk label) ↔
      Portable (clamped requested).toNat (entriesOf calls) := by
  rw [finish_eq label ran, decode_encode_iff, eq_comm, signatureOf_readBack,
    signatureOf_fits (clamped_bounds requested) short]
  constructor
  · rintro ⟨⟨few, few', bare⟩, named⟩
    exact ⟨few, few', named, bare⟩
  · rintro ⟨few, few', named, bare⟩
    exact ⟨⟨few, few', bare⟩, named⟩

/-- The codec of signatures: what was built is read back exactly when it is portable, the
pieces that bytes came in do not show, and what is read is consistent. -/
theorem signature_codec (hashChunk : Bytes → ChunkHash) :
    (∀ (kind : SignatureKind) (requested : UInt32) (profile label : String) (calls : List BuilderCall)
      (b : SignatureBuilder), (SignatureBuilder.start kind requested profile).calls hashChunk calls = some b →
      ShortTexts profile label (entriesOf calls) →
      (decode hashChunk (encode hashChunk (b.finish hashChunk label)) = .ok (b.finish hashChunk label) ↔
        Portable (clamped requested).toNat (entriesOf calls))) ∧
    (∀ (kind : SignatureKind) (requested : UInt32) (profile label : String) (calls calls' : List BuilderCall)
      (b b' : SignatureBuilder), (SignatureBuilder.start kind requested profile).calls hashChunk calls = some b →
      (SignatureBuilder.start kind requested profile).calls hashChunk calls' = some b' →
      entriesOf calls = entriesOf calls' → b.finish hashChunk label = b'.finish hashChunk label) ∧
    ∀ (bytes : Bytes) (s : CavsSignature), decode hashChunk bytes = .ok s →
      (∀ e ∈ s.entries, e.kind = .file →
        Contiguous 0 (s.blocks.filter fun b => b.entryId = e.entryId) e.size.toNat) ∧
      (∀ b ∈ s.blocks, b.len.toNat ≤ s.blockSize.toNat) ∧
      s.merkleRoot = merkleRoot hashChunk (s.blocks.map SignatureBlockHash.strongBlake3) := by
  refine ⟨fun kind requested profile label calls b ran short => decode_built_iff ran short,
    fun kind requested profile label calls calls' b b' ran ran' same => ?_, fun bytes s read => ?_⟩
  · rw [finish_eq label ran, finish_eq label ran', same]
  · obtain ⟨fits, -⟩ := decode_fits hashChunk read
    refine ⟨fun e mem file => ?_, fun b mem => (fits.blocks.bounded b mem).2.2, fits.root.symm⟩
    have whole := fits.covers e mem
    rw [Covers, if_pos file] at whole
    have reached := fits.blocks.contiguous e.entryId
    rw [whole] at reached
    exact reached

/-- Two files of a few bytes, one in pieces. -/
def portableCalls : List BuilderCall :=
  [.beginEntry "a" false none, .append [1], .append [2, 3], .beginEntry "b" true none, .beginEntry "d" false none,
    .entryKind .directory]

theorem signature_codec_pieces : ∃ b,
    (SignatureBuilder.start .directoryContainer 1024 "fixed").calls numberHash portableCalls = some b ∧
      decode numberHash (encode numberHash (b.finish numberHash "v1")) = .ok (b.finish numberHash "v1") := by
  refine ⟨_, rfl, ?_⟩
  refine ((signature_codec numberHash).1 .directoryContainer 1024 "fixed" "v1" portableCalls _ rfl ?_).mpr ?_
  · constructor <;> decide +kernel
  · constructor <;> decide +kernel

/-- Bytes of a directory are in no block that the decoder takes. -/
theorem not_signature_codec : ¬ ∀ (hashChunk : Bytes → ChunkHash) (kind : SignatureKind) (requested : UInt32)
    (profile label : String) (calls : List BuilderCall) (b : SignatureBuilder),
    (SignatureBuilder.start kind requested profile).calls hashChunk calls = some b →
    ShortTexts profile label (entriesOf calls) →
    decode hashChunk (encode hashChunk (b.finish hashChunk label)) = .ok (b.finish hashChunk label) := by
  intro trips
  have ran : (SignatureBuilder.start .directoryContainer 1024 "fixed").calls numberHash
      [.beginEntry "d" false none, .entryKind .directory, .append [1]] = some _ := rfl
  have short : ShortTexts "fixed" "v1" (entriesOf [.beginEntry "d" false none, .entryKind .directory, .append [1]]) := by
    constructor <;> decide +kernel
  have portable := (decode_built_iff ran short).mp (trips _ _ _ _ _ _ _ ran short)
  exact absurd (portable.bare ⟨"d", false, none, .directory, [1]⟩ (List.mem_singleton.mpr rfl) (by decide)) (by decide)

end Whole

end Cavs.Signature
