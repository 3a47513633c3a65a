import Cavs.Compare
import Cavs.SignatureCalls

/-!
# What a match with a signature says

Two verifiers hold a tree against the signature of another. One compares totals and a root
over all blocks, which say nothing of paths; the other compares path by path, as the paths
are spelled. The trees for which both mean that the trees are the same are told exactly.
-/
namespace Cavs.Compare
open FileProg (Bytes)
open Signature
open Merkle (leaves_treeOf levels pairs treeOf)
open Merkle.Tree (digest)
open List (flatMap_cons length_eq_zero_iff length_map map_cons map_map mem_filter mem_map mem_reverse
  mem_singleton zipIdx_cons)

variable {hashChunk : Bytes → ChunkHash}

section Trees

/-- What of a path is compared: not whether it may be executed. -/
def plain : DiskNode → DiskNode
  | .file content _ => .file content false
  | node => node

/-- The tool's own journal and its staging directory, with all that is in it. -/
def Own (p : RelPath) : Prop :=
  p = [strBytes ".cavs-journal.json"] ∨ p.head? = some (strBytes ".cavs-staging")

instance (p : RelPath) : Decidable (Own p) := by
  unfold Own
  infer_instance

/-- The second tree is the first with nothing but the tool's own files beside it. -/
def SameTree (t d : DiskTree) : Prop :=
  ∀ p node, (∃ n, (p, n) ∈ t.listing ∧ plain n = node) ↔ ¬ Own p ∧ ∃ n, (p, n) ∈ d.listing ∧ plain n = node

end Trees

section Roots

abbrev leafPairHash (hashChunk : Bytes → ChunkHash) (a b : ChunkHash) : ChunkHash := hashChunk (a.1 ++ b.1)

/-- The blocks of a tree, in the order of its paths. -/
def pieces (size : Nat) (t : DiskTree) : List Bytes := t.listing.flatMap fun x => cut size x.2.content

/-- What is hashed for the Merkle root over a list of blocks. -/
def rootInputs (hashChunk : Bytes → ChunkHash) (l : List Bytes) : List (Merkle.Input Bytes ChunkHash) :=
  (treeOf l).elim [] (Merkle.Tree.inputs hashChunk (leafPairHash hashChunk))

theorem merklePairs_digest (level : List (Merkle.Tree Bytes)) :
    merklePairs hashChunk (level.map (digest hashChunk (leafPairHash hashChunk))) =
      (pairs level).map (digest hashChunk (leafPairHash hashChunk)) := by
  fun_induction pairs with
  | case1 a b rest ih =>
      rw [map_cons, map_cons, merklePairs, ih]
      rfl
  | case2 rest short =>
      rcases rest with _ | ⟨a, _ | ⟨b, rest⟩⟩
      · rfl
      · rfl
      · exact absurd rfl (short a b rest)

theorem merkleLevels_digest (fuel : Nat) (level : List (Merkle.Tree Bytes)) :
    merkleLevels hashChunk fuel (level.map (digest hashChunk (leafPairHash hashChunk))) =
      (levels fuel level).map (digest hashChunk (leafPairHash hashChunk)) := by
  fun_induction levels with
  | case1 level => rfl
  | case2 fuel level many ih => rw [merkleLevels, if_pos (by rwa [length_map]), merklePairs_digest, ih]
  | case3 fuel level few => rw [merkleLevels, if_neg (by rwa [length_map])]

theorem merkleRoot_digest (l : List Bytes) :
    merkleRoot hashChunk (l.map hashChunk) =
      (treeOf l).elim (hashChunk []) (digest hashChunk (leafPairHash hashChunk)) := by
  have leaves : l.map hashChunk =
      (l.map Merkle.Tree.leaf).map (digest hashChunk (leafPairHash hashChunk)) := by
    rw [map_map]
    rfl
  rw [merkleRoot, leaves, merkleLevels_digest, length_map, length_map, treeOf]
  cases levels l.length (l.map Merkle.Tree.leaf) <;> rfl

theorem leaf_input {t : Merkle.Tree Bytes} {b : Bytes} (mem : b ∈ t.leaves) :
    .inl b ∈ t.inputs hashChunk (leafPairHash hashChunk) := by
  induction t with
  | leaf a =>
      rw [mem_singleton.mp mem]
      exact .head _
  | node left right ihLeft ihRight =>
      rcases List.mem_append.mp mem with mem | mem
      · exact .tail _ (List.mem_append_left _ (ihLeft mem))
      · exact .tail _ (List.mem_append_right _ (ihRight mem))

theorem piece_input {l : List Bytes} {b : Bytes} (mem : b ∈ l) : .inl b ∈ rootInputs hashChunk l := by
  have leaves := leaves_treeOf l
  rw [rootInputs]
  cases h : treeOf l with
  | none =>
      rw [h] at leaves
      rw [← leaves] at mem
      cases mem
  | some t =>
      rw [h] at leaves
      rw [← leaves] at mem
      exact leaf_input mem

/-- Nothing that is hashed for one root has the hash of another input of the other root. -/
theorem root_injective {l l' : List Bytes}
    (apart : Merkle.Apart hashChunk (leafPairHash hashChunk) (rootInputs hashChunk l) (rootInputs hashChunk l'))
    (empty : l = [] ↔ l' = [])
    (same : merkleRoot hashChunk (l.map hashChunk) = merkleRoot hashChunk (l'.map hashChunk)) : l = l' := by
  have leaves := leaves_treeOf l
  have leaves' := leaves_treeOf l'
  rw [merkleRoot_digest, merkleRoot_digest] at same
  unfold rootInputs at apart
  cases h : treeOf l with
  | none =>
      rw [h] at leaves
      rw [← leaves, empty.mp leaves.symm]
      rfl
  | some t =>
      cases h' : treeOf l' with
      | none =>
          rw [h'] at leaves'
          rw [← leaves', empty.mpr leaves'.symm]
          rfl
      | some t' =>
          rw [h, h'] at apart same
          have one : t = t' := Merkle.digest_injective apart same
          rw [h] at leaves
          rw [h'] at leaves'
          rw [← leaves, ← leaves', one]

end Roots

section Verify
variable {t d : DiskTree} {sig : CavsSignature} {size : Nat}

/-- The bytes of a tree's files, one after another. -/
def contentOf (t : DiskTree) : Bytes := t.listing.flatMap fun x => x.2.content

/-- BLAKE3 taken as injective on everything that is hashed when the two trees are signed: the
files' bytes in a row, the blocks and the nodes of the Merkle trees over them. -/
structure Distinct (hashChunk : Bytes → ChunkHash) (size : Nat) (t d : DiskTree) : Prop where
  content : hashChunk (contentOf t) = hashChunk (contentOf d) → contentOf t = contentOf d
  inputs : Merkle.Apart hashChunk (leafPairHash hashChunk) (rootInputs hashChunk (pieces size t))
    (rootInputs hashChunk (pieces size d))

theorem pieces_flatten (pos : 0 < size) (t : DiskTree) : (pieces size t).flatten = contentOf t := by
  rw [pieces, contentOf]
  induction t.listing with
  | nil => rfl
  | cons x l ih => rw [flatMap_cons, List.flatten_append, ih, flatMap_cons, cut_flatten pos]

theorem pieces_empty (pos : 0 < size) : pieces size t = [] ↔ contentOf t = [] := by
  constructor
  · intro none
    rw [← pieces_flatten pos, none]
    rfl
  · intro none
    rw [← pieces_flatten pos, List.flatten_eq_nil_iff] at none
    refine List.eq_nil_iff_forall_not_mem.mpr fun p mem => ?_
    obtain ⟨x, -, there⟩ := List.mem_flatMap.mp mem
    exact (mem_cutFrom pos there).1 (none p mem)

theorem blocks_strong (l : List (RelPath × DiskNode)) (k : Nat) :
    ((l.zipIdx k).flatMap fun x => rowsOf hashChunk size x.2 x.1).map SignatureBlockHash.strongBlake3 =
      (l.flatMap fun x => cut size x.2.content).map hashChunk := by
  induction l generalizing k with
  | nil => rfl
  | cons x l ih =>
      rw [zipIdx_cons, flatMap_cons, flatMap_cons, List.map_append, List.map_append, ih, rowsOf,
        rowsFrom_strong]

theorem signs_root (h : Signs hashChunk size t.listing sig) :
    sig.merkleRoot = merkleRoot hashChunk ((pieces size t).map hashChunk) := by
  rw [h.merkleRoot, h.blocks, blocks_strong]
  rfl

/-- The first verifier tells the sequences of blocks apart and nothing else. -/
theorem verifyAgainst_iff (pos : 0 < size) (distinct : Distinct hashChunk size t d)
    (h : Signs hashChunk size t.listing sig)
    (fresh : Signs hashChunk size d.listing (signDir hashChunk d sig.blockSize sig.sourceLabel)) :
    verifyAgainst hashChunk sig (.directory d) = .ok () ↔ pieces size t = pieces size d := by
  have signed : signAs hashChunk sig.kind (.directory d) sig.blockSize sig.sourceLabel =
      .ok (signDir hashChunk d sig.blockSize sig.sourceLabel) := by
    rw [h.kind]
    rfl
  unfold verifyAgainst
  rw [signed]
  generalize signDir hashChunk d sig.blockSize sig.sourceLabel = s at fresh
  show (if s.sourceSize ≠ sig.sourceSize then _ else _) = _ ↔ _
  constructor
  · intro run
    split_ifs at run with sizes contents roots
    have content : contentOf t = contentOf d := by
      refine distinct.content ?_
      by_contra apart
      refine contents ⟨by rw [h.sourceBlake3]; rfl, by rw [fresh.sourceBlake3]; rfl, ?_⟩
      rw [h.sourceBlake3, fresh.sourceBlake3]
      exact fun same => apart (Option.some.inj same)
    refine root_injective distinct.inputs ?_ ?_
    · rw [pieces_empty pos, pieces_empty pos, content]
    · rw [← signs_root h, ← signs_root fresh]
      exact (not_not.mp roots).symm
  · intro same
    have content : contentOf t = contentOf d := by rw [← pieces_flatten pos, same, pieces_flatten pos]
    have sizes : s.sourceSize = sig.sourceSize := by
      rw [h.sourceSize, fresh.sourceSize]
      exact congrArg (fun c : Bytes => UInt64.ofNat c.length) content.symm
    have contents : sig.sourceBlake3 = s.sourceBlake3 := by
      rw [h.sourceBlake3, fresh.sourceBlake3]
      exact congrArg (fun c => some (hashChunk c)) content
    have roots : s.merkleRoot = sig.merkleRoot := by rw [signs_root h, signs_root fresh, same]
    rw [if_neg (not_not.mpr sizes), if_neg (fun no => no.2.2 contents), if_neg (not_not.mpr roots)]

end Verify

section Classify
variable {t d : DiskTree} {sig : CavsSignature} {size : Nat} {x : RelPath × DiskNode}

def targetOf : DiskNode → List Char
  | .symlink target => lossy target
  | _ => []

/-- What the second verifier compares of a path; a link target is read as text. -/
def facts (node : DiskNode) : EntryKind × Bytes × List Char := (kindOf node, node.content, targetOf node)

def lastSpelled (t : DiskTree) (path : String) : Option (RelPath × DiskNode) :=
  t.listing.reverse.find? fun x => x.1.spelled = path

/-- The trees agree as the second verifier reads them: by the spelling of their paths, what it
skips left out. -/
structure ReadsAs (t d : DiskTree) : Prop where
  found : ∀ x ∈ compared d, (lastSpelled t x.1.spelled).map (fun y => facts y.2) = some (facts x.2)
  seen : ∀ y ∈ t.listing, y.1.spelled ∈ (compared d).map fun x => x.1.spelled

section Files

/-- Two files of one length are compared block by block. -/
theorem matchBlocks_cut {fuel : Nat} {c c' : Bytes} {id : UInt32} {offset : UInt64} (small : size < 2 ^ 32)
    (long : c'.length = c.length) :
    matchBlocks hashChunk c' (Signature.rowsFrom hashChunk id offset (cutFrom size fuel c)) = true ↔
      (cutFrom size fuel c').map hashChunk = (cutFrom size fuel c).map hashChunk := by
  induction fuel generalizing c c' offset with
  | zero => exact ⟨fun _ => rfl, fun _ => rfl⟩
  | succ fuel ih =>
      rcases c with _ | ⟨b, rest⟩
      · rw [List.length_nil, length_eq_zero_iff] at long
        subst long
        exact ⟨fun _ => rfl, fun _ => rfl⟩
      · obtain ⟨b', rest', rfl⟩ := List.exists_cons_of_length_eq_add_one long
        have length : ((b :: rest).take size).length = min size (b' :: rest').length := by
          rw [List.length_take, long]
        have fits : (UInt32.ofNat ((b :: rest).take size).length).toNat = min size (b' :: rest').length := by
          rw [← length]
          exact UInt32.toNat_ofNat_of_lt' (Nat.lt_of_le_of_lt (List.length_take_le ..) small)
        have front : (b' :: rest').take (min size (b' :: rest').length) = (b' :: rest').take size := by
          rw [List.take_eq_take_iff]
          omega
        have back : (b' :: rest').drop (min size (b' :: rest').length) = (b' :: rest').drop size := by
          rcases Nat.le_total size (b' :: rest').length with le | le
          · rw [min_eq_left le]
          · rw [min_eq_right le, List.drop_length, List.drop_eq_nil_of_le le]
        have left : ((b' :: rest').drop size).length = ((b :: rest).drop size).length := by
          rw [List.length_drop, List.length_drop, long]
        rw [cutFrom, cutFrom, Signature.rowsFrom, matchBlocks]
        dsimp only
        rw [fits, if_neg (by omega), front, back, map_cons, map_cons, List.cons.injEq]
        by_cases head : hashChunk ((b' :: rest').take size) = hashChunk ((b :: rest).take size)
        · rw [if_neg (not_not.mpr head), ih left]
          exact (and_iff_right head).symm
        · rw [if_pos head]
          exact ⟨fun bad => absurd bad Bool.false_ne_true, fun both => absurd both.1 head⟩

theorem eq_of_map_eq {α β : Type} {f : α → β} {l l' : List α} (distinct : ∀ p ∈ l, ∀ q ∈ l', f p = f q → p = q)
    (same : l.map f = l'.map f) : l = l' := by
  induction l generalizing l' with
  | nil => exact (List.map_eq_nil_iff.mp same.symm).symm
  | cons p l ih =>
      cases l' with
      | nil => cases same
      | cons q l' =>
          rw [map_cons, map_cons, List.cons.injEq] at same
          rw [distinct p (.head _) q (.head _) same.1, ih (fun p hp q hq => distinct p (.tail _ hp) q (.tail _ hq)) same.2]

theorem matchBlocks_iff {c c' : Bytes} {id : UInt32} (pos : 0 < size) (small : size < 2 ^ 32)
    (long : c'.length = c.length)
    (distinct : ∀ p ∈ cut size c, ∀ q ∈ cut size c', hashChunk p = hashChunk q → p = q) :
    matchBlocks hashChunk c' (Signature.rowsFrom hashChunk id 0 (cut size c)) = true ↔ c' = c := by
  rw [cut, matchBlocks_cut small long]
  constructor
  · intro same
    have one : cut size c = cut size c' := by
      refine eq_of_map_eq distinct ?_
      rw [cut, cut, long]
      exact same.symm
    rw [← cut_flatten pos c, one, cut_flatten pos]
  · rintro rfl
    rfl

/-- A file matches the blocks of another exactly when it has the same bytes. -/
theorem fileMatchesBlocks_iff {c c' : Bytes} (id : UInt32) (pos : 0 < size) (small : size < 2 ^ 32)
    (fits : c.length < 2 ^ 64) (fits' : c'.length < 2 ^ 64)
    (distinct : ∀ p ∈ cut size c, ∀ q ∈ cut size c', hashChunk p = hashChunk q → p = q) :
    fileMatchesBlocks hashChunk c' (UInt64.ofNat c.length) (listed (Signature.rowsFrom hashChunk id 0 (cut size c))) = true ↔
      c' = c := by
  have number : ∀ {n m : Nat}, n < 2 ^ 64 → m < 2 ^ 64 → (UInt64.ofNat n = UInt64.ofNat m ↔ n = m) := by
    intro n m hn hm
    rw [← UInt64.toNat_inj, UInt64.toNat_ofNat_of_lt' hn, UInt64.toNat_ofNat_of_lt' hm]
  unfold fileMatchesBlocks
  dsimp only
  by_cases long : c'.length = c.length
  · rw [if_neg (not_not.mpr ((number fits' fits).mpr long))]
    by_cases empty : c' = []
    · subst empty
      have none : c = [] := length_eq_zero_iff.mp long.symm
      rw [if_pos (show UInt64.ofNat ([] : Bytes).length = 0 from rfl), none]
      exact ⟨fun _ => rfl, fun _ => rfl⟩
    · have some : UInt64.ofNat c'.length ≠ 0 := by
        intro zero
        exact empty (length_eq_zero_iff.mp ((number fits' (by decide)).mp zero))
      have rows : Signature.rowsFrom hashChunk id 0 (cut size c) ≠ [] := by
        intro none
        have blocks : cut size c = [] := by
          cases h : cut size c with
          | nil => rfl
          | cons p l => rw [h] at none; cases none
        have := cut_flatten pos c
        rw [blocks] at this
        exact empty (length_eq_zero_iff.mp (long.trans (congrArg List.length this.symm)))
      have blocks : matchBlocks hashChunk c' (Signature.rowsFrom hashChunk id 0 (cut size c)) = true ↔ c' = c :=
        matchBlocks_iff pos small long distinct
      rw [if_neg some, ← blocks]
      cases h : Signature.rowsFrom hashChunk id 0 (cut size c) with
      | nil => exact absurd h rows
      | cons r rs => rfl
  · rw [if_pos fun same => long ((number fits' fits).mp same)]
    exact ⟨nofun, fun same => absurd (congrArg List.length same) long⟩

end Files

section Lookup

theorem mem_zipIdx_lt {α : Type} {l : List α} {k : Nat} {y : α × Nat} (mem : y ∈ l.zipIdx k) :
    k ≤ y.2 ∧ y.2 < k + l.length := by
  obtain ⟨low, high, -⟩ := List.mem_zipIdx mem
  exact ⟨low, high⟩

/-- What one place of a list adds. -/
theorem flatMap_zipIdx_at {α β : Type} {f : α × Nat → List β} {l : List α} {k : Nat} {y : α × Nat}
    (mem : y ∈ l.zipIdx k) : ((l.zipIdx k).flatMap fun z => if z.2 = y.2 then f z else []) = f y := by
  induction l generalizing k with
  | nil => cases mem
  | cons a l ih =>
      rw [zipIdx_cons, flatMap_cons]
      rw [zipIdx_cons] at mem
      rcases List.mem_cons.mp mem with rfl | mem
      · have later : ((l.zipIdx (k + 1)).flatMap fun z => if z.2 = k then f z else []) = [] := by
          refine List.flatMap_eq_nil_iff.mpr fun z hz => if_neg ?_
          have := (mem_zipIdx_lt hz).1
          omega
        rw [later, if_pos rfl, List.append_nil]
      · have := (mem_zipIdx_lt mem).1
        rw [if_neg (by dsimp only; omega), List.nil_append, ih mem]

theorem oldByPath_eq (h : Signs hashChunk size t.listing sig) (path : String) :
    oldByPath sig path =
      (t.listing.zipIdx.reverse.find? fun y => y.1.1.spelled = path).map fun y => entryOf y.2 y.1 := by
  rw [oldByPath, h.entries, ← List.map_reverse, List.find?_map]
  have path_of : ∀ y : (RelPath × DiskNode) × Nat, (entryOf y.2 y.1).path = y.1.1.spelled := by
    rintro ⟨⟨rel, node⟩, i⟩
    cases node <;> rfl
  congr 2
  funext y
  rw [Function.comp_apply, path_of]

theorem lastSpelled_eq (t : DiskTree) (path : String) :
    lastSpelled t path = (t.listing.zipIdx.reverse.find? fun y => y.1.1.spelled = path).map Prod.fst := by
  have plainly : t.listing.zipIdx.map Prod.fst = t.listing := List.zipIdx_map_fst ..
  rw [lastSpelled]
  conv => lhs; rw [← plainly, ← List.map_reverse, List.find?_map]
  rfl

/-- Every entry has the blocks of its file: the numbers of a signature that was read differ. -/
theorem indexBlocks_eq (h : Signs hashChunk size t.listing sig) (few : t.listing.length ≤ maxEntries)
    {y : (RelPath × DiskNode) × Nat} (mem : y ∈ t.listing.zipIdx) :
    indexBlocks sig (UInt32.ofNat y.2) = listed (rowsOf hashChunk size y.2 y.1) := by
  have small : ∀ z ∈ t.listing.zipIdx, z.2 < 2 ^ 32 := fun z hz =>
    Nat.lt_of_lt_of_le (Nat.lt_of_lt_of_le (mem_zipIdx_lt hz).2 (by omega)) (show maxEntries ≤ 2 ^ 32 by decide)
  have own : (sig.blocks.filter fun b => b.entryId = UInt32.ofNat y.2) = rowsOf hashChunk size y.2 y.1 := by
    have there : _ = rowsOf hashChunk size y.2 y.1 :=
      flatMap_zipIdx_at (f := fun z => rowsOf hashChunk size z.2 z.1) mem
    rw [h.blocks, List.filter_flatMap, ← there]
    refine List.flatMap_congr fun z hz => ?_
    by_cases same : z.2 = y.2
    · rw [if_pos same, List.filter_eq_self]
      intro b hb
      rw [rowsFrom_id hb, same]
      exact decide_eq_true rfl
    · rw [if_neg same, List.filter_eq_nil_iff]
      intro b hb own
      rw [rowsFrom_id hb] at own
      have := congrArg UInt32.toNat (of_decide_eq_true own)
      rw [UInt32.toNat_ofNat_of_lt' (small z hz), UInt32.toNat_ofNat_of_lt' (small y mem)] at this
      exact same this
  rw [indexBlocks, own]

end Lookup

theorem mem_cut_pieces {p : Bytes} (mem : x ∈ t.listing) (there : p ∈ cut size x.2.content) :
    p ∈ pieces size t := List.mem_flatMap.mpr ⟨x, mem, there⟩

theorem Distinct.blocks (distinct : Distinct hashChunk size t d) {p q : Bytes} (hp : p ∈ pieces size t)
    (hq : q ∈ pieces size d) (same : hashChunk p = hashChunk q) : p = q :=
  Sum.inl.inj (distinct.inputs (.inl p) (piece_input hp) (.inl q) (piece_input hq) same)

theorem listing_fits (mem : x ∈ t.listing) : x.2.content.length < 2 ^ 64 :=
  (t.sound.each (DiskTree.mem_listing.mp mem)).1

/-- A path is the same as the entry that stands for its spelling when all that is compared is. -/
theorem stateOf_same_iff (pos : 0 < size) (small : size < 2 ^ 32) (distinct : Distinct hashChunk size t d)
    (h : Signs hashChunk size t.listing sig) (few : t.listing.length ≤ maxEntries) (mem : x ∈ d.listing) :
    stateOf hashChunk sig x.1.spelled x.2 = .same ↔
      (lastSpelled t x.1.spelled).map (fun y => facts y.2) = some (facts x.2) := by
  rw [stateOf, oldByPath_eq h, lastSpelled_eq]
  cases found : t.listing.zipIdx.reverse.find? fun y => y.1.1.spelled = x.1.spelled with
  | none => exact ⟨nofun, nofun⟩
  | some y =>
      have there : y ∈ t.listing.zipIdx := mem_reverse.mp (List.mem_of_find?_eq_some found)
      have listed : y.1 ∈ t.listing := List.fst_mem_of_mem_zipIdx there
      obtain ⟨⟨rel, old⟩, i⟩ := y
      obtain ⟨path, node⟩ := x
      simp only [Option.map_some, Option.some.injEq]
      have kind : (entryOf i (rel, old)).kind = kindOf old := by cases old <;> rfl
      rw [kind]
      by_cases kinds : kindOf old = kindOf node
      · rw [if_neg (not_not.mpr kinds)]
        cases node with
        | directory =>
            cases old <;> first | exact ⟨fun _ => rfl, fun _ => rfl⟩ | cases kinds
        | symlink target =>
            cases old with
            | symlink target' =>
                have told : (entryOf i (rel, .symlink target')).symlinkTarget = some (String.ofList (lossy target')) := rfl
                rw [told]
                dsimp only
                by_cases targets : lossy target' = lossy target
                · rw [if_pos (by rw [targets])]
                  exact ⟨fun _ => congrArg (fun l => (EntryKind.symlink, ([] : Bytes), l)) targets, fun _ => rfl⟩
                · rw [if_neg fun same => targets (String.ofList_injective (Option.some.inj same))]
                  exact ⟨nofun, fun same => absurd (congrArg (fun f => f.2.2) same) targets⟩
            | file _ _ => cases kinds
            | directory => cases kinds
        | file content executable =>
            cases old with
            | file content' executable' =>
                have blocks : indexBlocks sig (entryOf i (rel, .file content' executable')).entryId =
                    Compare.listed (Signature.rowsFrom hashChunk (UInt32.ofNat i) 0 (cut size content')) := indexBlocks_eq h few there
                have matches_ : fileMatchesBlocks hashChunk content (entryOf i (rel, .file content' executable')).size _ = true ↔ _ :=
                  fileMatchesBlocks_iff (UInt32.ofNat i) pos small (listing_fits listed) (listing_fits mem) fun p hp q hq =>
                    distinct.blocks (mem_cut_pieces listed hp) (mem_cut_pieces mem hq)
                rw [blocks]
                dsimp only
                by_cases contents : content = content'
                · rw [if_pos (matches_.mpr contents)]
                  exact ⟨fun _ => congrArg (fun c => (EntryKind.file, c, ([] : List Char))) contents.symm, fun _ => rfl⟩
                · rw [if_neg fun same => contents (matches_.mp same)]
                  exact ⟨nofun, fun same => absurd (congrArg (fun f => f.2.1) same).symm contents⟩
            | symlink _ => cases kinds
            | directory => cases kinds
      · rw [if_pos kinds]
        exact ⟨nofun, fun same => absurd (congrArg Prod.fst same) kinds⟩

theorem mem_classifyDir {r : EntryReport} :
    r ∈ classifyDir hashChunk sig d ↔
      (∃ x ∈ compared d, (kindOf x.2 ≠ .directory ∨ r.state ≠ .same) ∧ r = reportOf hashChunk sig x) ∨
      ∃ e ∈ sig.entries, (e.path ∉ (compared d).map fun x => x.1.spelled) ∧ r = ⟨e.path, .deleted, 0⟩ := by
  rw [classifyDir, List.mem_insertionSort, List.mem_append, List.mem_filterMap, List.mem_filterMap]
  constructor
  · rintro (⟨x, mem, told⟩ | ⟨e, mem, told⟩)
    · dsimp only at told
      split_ifs at told with shown
      cases told
      exact .inl ⟨x, mem, shown, rfl⟩
    · split_ifs at told with there
      cases told
      exact .inr ⟨e, mem, there, rfl⟩
  · rintro (⟨x, mem, shown, rfl⟩ | ⟨e, mem, gone, rfl⟩)
    · exact .inl ⟨x, mem, if_pos shown⟩
    · exact .inr ⟨e, mem, if_neg gone⟩

theorem mem_entries_path (h : Signs hashChunk size t.listing sig) (path : String) :
    (∃ e ∈ sig.entries, e.path = path) ↔ ∃ y ∈ t.listing, y.1.spelled = path := by
  have path_of : ∀ y : (RelPath × DiskNode) × Nat, (entryOf y.2 y.1).path = y.1.1.spelled := by
    rintro ⟨⟨rel, node⟩, i⟩
    cases node <;> rfl
  rw [h.entries]
  constructor
  · rintro ⟨e, mem, rfl⟩
    obtain ⟨y, there, rfl⟩ := mem_map.mp mem
    exact ⟨y.1, List.fst_mem_of_mem_zipIdx there, (path_of y).symm⟩
  · rintro ⟨y, mem, rfl⟩
    have plainly : t.listing.zipIdx.map Prod.fst = t.listing := List.zipIdx_map_fst ..
    rw [← plainly] at mem
    obtain ⟨z, there, rfl⟩ := mem_map.mp mem
    exact ⟨entryOf z.2 z.1, mem_map.mpr ⟨z, there, rfl⟩, path_of z⟩

/-- The second verifier compares the trees as it reads them. -/
theorem classifyDir_same_iff (pos : 0 < size) (small : size < 2 ^ 32) (distinct : Distinct hashChunk size t d)
    (h : Signs hashChunk size t.listing sig) (few : t.listing.length ≤ maxEntries) :
    (∀ r ∈ classifyDir hashChunk sig d, r.state = .same) ↔ ReadsAs t d := by
  constructor
  · intro all
    constructor
    · intro x mem
      rw [← stateOf_same_iff pos small distinct h few (mem_filter.mp mem).1]
      by_contra other
      exact other (all _ (mem_classifyDir.mpr (.inl ⟨x, mem, .inr other, rfl⟩)))
    · intro y mem
      by_contra absent
      obtain ⟨e, there, path⟩ := (mem_entries_path h y.1.spelled).mpr ⟨y, mem, rfl⟩
      rw [← path] at absent
      exact nomatch all _ (mem_classifyDir.mpr (.inr ⟨e, there, absent, rfl⟩))
  · intro reads r mem
    rcases mem_classifyDir.mp mem with ⟨x, there, -, rfl⟩ | ⟨e, there, gone, -⟩
    · exact (stateOf_same_iff pos small distinct h few (mem_filter.mp there).1).mpr (reads.found x there)
    · obtain ⟨y, mem, path⟩ := (mem_entries_path h e.path).mp ⟨e, there, rfl⟩
      rw [← path] at gone
      exact absurd (reads.seen y mem) gone

end Classify

section Same
variable {t d : DiskTree} {size : Nat} {x : RelPath × DiskNode}

theorem own_skipped {p : RelPath} (own : Own p) : skipped p.spelled = true := by
  rcases own with rfl | head
  · decide +kernel
  · obtain ⟨rest, rfl⟩ : ∃ rest, p = strBytes ".cavs-staging" :: rest := by
      cases p with
      | nil => cases head
      | cons name rest => exact ⟨rest, congrArg (· :: rest) (Option.some.inj head)⟩
    obtain ⟨tail, spelled⟩ := RelPath.spelled_cons ".cavs-staging" rest
    have slashes : ".cavs-staging".toList.map (fun c => if c = '\\' then '/' else c) = ".cavs-staging".toList := by
      decide
    rw [skipped, spelled, slashes, Bool.or_eq_true]
    exact .inl (List.isPrefixOf_iff_prefix.mpr (List.prefix_append ..))

/-- Where no path of a tree is skipped and paths that are spelled alike hold the same. -/
structure Clear (t : DiskTree) : Prop where
  kept : ∀ x ∈ t.listing, skipped x.1.spelled = false
  alike : ∀ x ∈ t.listing, ∀ y ∈ t.listing, x.1.spelled = y.1.spelled → facts x.2 = facts y.2

theorem facts_plain (node : DiskNode) : facts (plain node) = facts node := by cases node <;> rfl

theorem SameTree.at_first (same : SameTree t d) (mem : x ∈ t.listing) :
    ¬ Own x.1 ∧ ∃ n, (x.1, n) ∈ d.listing ∧ facts n = facts x.2 := by
  obtain ⟨own, n, there, plainly⟩ := (same x.1 (plain x.2)).mp ⟨x.2, mem, rfl⟩
  exact ⟨own, n, there, by rw [← facts_plain, plainly, facts_plain]⟩

theorem SameTree.at_second (same : SameTree t d) (mem : x ∈ d.listing) (foreign : ¬ Own x.1) :
    ∃ n, (x.1, n) ∈ t.listing ∧ facts n = facts x.2 := by
  obtain ⟨n, there, plainly⟩ := (same x.1 (plain x.2)).mpr ⟨foreign, x.2, mem, rfl⟩
  exact ⟨n, there, by rw [← facts_plain, plainly, facts_plain]⟩

theorem lastSpelled_of_mem (mem : x ∈ t.listing) :
    ∃ y, lastSpelled t x.1.spelled = some y ∧ y ∈ t.listing ∧ y.1.spelled = x.1.spelled := by
  cases found : lastSpelled t x.1.spelled with
  | none =>
      have := List.find?_eq_none.mp found x (mem_reverse.mpr mem)
      exact absurd (decide_eq_true rfl) this
  | some y =>
      unfold lastSpelled at found
      have spelled := List.find?_some found
      exact ⟨y, rfl, mem_reverse.mp (List.mem_of_find?_eq_some found), of_decide_eq_true spelled⟩

theorem mem_compared : x ∈ compared d ↔ x ∈ d.listing ∧ skipped x.1.spelled = false := by
  rw [compared, mem_filter, Bool.not_eq_true']

theorem same_reads_iff (same : SameTree t d) : ReadsAs t d ↔ Clear t := by
  constructor
  · intro reads
    have keeps : ∀ x ∈ t.listing, skipped x.1.spelled = false := by
      intro x mem
      obtain ⟨z, there, spelled⟩ := mem_map.mp (reads.seen x mem)
      rw [← spelled]
      exact (mem_compared.mp there).2
    have stands : ∀ x ∈ t.listing, (lastSpelled t x.1.spelled).map (fun y => facts y.2) = some (facts x.2) := by
      intro x mem
      obtain ⟨-, n, there, told⟩ := same.at_first mem
      rw [← told]
      exact reads.found (x.1, n) (mem_compared.mpr ⟨there, keeps x mem⟩)
    refine ⟨keeps, fun x hx y hy spelled => ?_⟩
    have first := stands x hx
    rw [spelled, stands y hy] at first
    exact (Option.some.inj first).symm
  · intro clear
    constructor
    · intro x mem
      obtain ⟨there, kept⟩ := mem_compared.mp mem
      have foreign : ¬ Own x.1 := fun own => by
        rw [own_skipped own] at kept
        cases kept
      obtain ⟨n, listed, told⟩ := same.at_second there foreign
      obtain ⟨y, found, among, spelled⟩ := lastSpelled_of_mem listed
      have last : lastSpelled t x.1.spelled = some y := found
      rw [last, Option.map_some, clear.alike y among (x.1, n) listed spelled, told]
    · intro y mem
      obtain ⟨-, n, there, -⟩ := same.at_first mem
      exact mem_map.mpr ⟨(y.1, n), mem_compared.mpr ⟨there, clear.kept y mem⟩, rfl⟩

/-- The tool's own files hold no bytes. -/
def OwnEmpty (d : DiskTree) : Prop := ∀ x ∈ d.listing, Own x.1 → x.2.content = []

theorem sorted_eq {l l' : List (RelPath × DiskNode)} (sorted : l.Pairwise fun a b => RelPath.le a.1 b.1)
    (sorted' : l'.Pairwise fun a b => RelPath.le a.1 b.1) (once : (l.map Prod.fst).Nodup)
    (once' : (l'.map Prod.fst).Nodup) (same : ∀ x, x ∈ l ↔ x ∈ l') : l = l' := by
  have perm : l.Perm l' :=
    (List.perm_ext_iff_of_nodup (List.Nodup.of_map _ once) (List.Nodup.of_map _ once')).mpr same
  refine perm.eq_of_pairwise (fun x y hx hy le ge => ?_) sorted sorted'
  have path : x.1 = y.1 := RelPath.le_antisymm le ge
  exact List.inj_on_of_nodup_map once hx ((same y).mpr hy) path

/-- The first tree is the second without the tool's own files. -/
theorem same_listing (same : SameTree t d) :
    t.listing.map (fun x => (x.1, plain x.2)) =
      (d.listing.filter fun x => ¬ Own x.1).map fun x => (x.1, plain x.2) := by
  have paths : ∀ l : List (RelPath × DiskNode), (l.map fun x => (x.1, plain x.2)).map Prod.fst = l.map Prod.fst := by
    intro l
    rw [map_map]
    rfl
  have filtered : (d.listing.filter fun x => ¬ Own x.1).Sublist d.listing := List.filter_sublist
  refine sorted_eq ?_ ?_ ?_ ?_ fun x => ?_
  · exact List.pairwise_map.mpr t.listing_sorted
  · exact List.pairwise_map.mpr (d.listing_sorted.sublist filtered)
  · rw [paths]
    exact t.listing_nodup
  · rw [paths]
    exact d.listing_nodup.sublist (filtered.map _)
  · obtain ⟨p, node⟩ := x
    have told := same p node
    simp only [mem_map, Prod.mk.injEq, mem_filter, decide_eq_true_eq, Prod.exists]
    constructor
    · rintro ⟨q, n, mem, rfl, rfl⟩
      obtain ⟨foreign, m, there, plainly⟩ := told.mp ⟨n, mem, rfl⟩
      exact ⟨q, m, ⟨there, foreign⟩, rfl, plainly⟩
    · rintro ⟨q, n, ⟨mem, foreign⟩, rfl, rfl⟩
      obtain ⟨m, there, plainly⟩ := told.mpr ⟨foreign, n, mem, rfl⟩
      exact ⟨q, m, there, rfl, plainly⟩

theorem flatMap_filter_length {α β : Type} (f : α → List β) (p : α → Bool) (l : List α) :
    (l.flatMap f).length = ((l.filter p).flatMap f).length + ((l.filter fun x => !p x).flatMap f).length := by
  induction l with
  | nil => rfl
  | cons x l ih =>
      rw [flatMap_cons, List.length_append, ih]
      cases h : p x <;> simp [h] <;> omega

theorem flatMap_filter_empty {α β : Type} {f : α → List β} {p : α → Bool} {l : List α}
    (none : ∀ x ∈ l, p x = false → f x = []) : (l.filter p).flatMap f = l.flatMap f := by
  induction l with
  | nil => rfl
  | cons x l ih =>
      have rest := ih fun y hy => none y (.tail _ hy)
      cases h : p x with
      | true => rw [List.filter_cons_of_pos h, flatMap_cons, flatMap_cons, rest]
      | false =>
          rw [List.filter_cons_of_neg (by rw [h]; exact Bool.false_ne_true), flatMap_cons, none x (.head _) h, rest,
            List.nil_append]

theorem same_pieces_iff (pos : 0 < size) (same : SameTree t d) : pieces size t = pieces size d ↔ OwnEmpty d := by
  have foreign : pieces size t = (d.listing.filter fun x => ¬ Own x.1).flatMap fun x => cut size x.2.content := by
    have plainly : ∀ l : List (RelPath × DiskNode), (l.flatMap fun x => cut size x.2.content) =
        (l.map fun x => (x.1, plain x.2)).flatMap fun x => cut size x.2.content := by
      intro l
      rw [List.flatMap_map]
      refine List.flatMap_congr fun x _ => ?_
      cases x.2 <;> rfl
    rw [pieces, plainly, same_listing same, ← plainly]
  rw [foreign, pieces]
  constructor
  · intro all x mem own
    have lengths := flatMap_filter_length (fun x : RelPath × DiskNode => cut size x.2.content) (fun x => ¬ Own x.1) d.listing
    rw [← all, Nat.left_eq_add, length_eq_zero_iff, List.flatMap_eq_nil_iff] at lengths
    have none := lengths x (mem_filter.mpr ⟨mem, by simpa using own⟩)
    rw [← cut_flatten pos x.2.content, none]
    rfl
  · intro empty
    refine flatMap_filter_empty fun x mem own => ?_
    rw [empty x mem (by simpa using own)]
    rfl

end Same

section Exact
variable {t d : DiskTree} {sig : CavsSignature}

/-- A file of the first tree whose name only begins like the staging directory, and that the
second tree still has, is not reported deleted. -/
def LikeAnyOther (hashChunk : Bytes → ChunkHash) (sig : CavsSignature) (t d : DiskTree) : Prop :=
  ∀ x ∈ t.listing, kindOf x.2 = .file → ¬ Own x.1 → skipped x.1.spelled → (∃ n, (x.1, n) ∈ d.listing) →
    ∃ reports, classify hashChunk sig (.directory d) = .ok reports ∧
      ∃ r ∈ reports, r.path = x.1.spelled ∧ r.state ≠ .deleted

/-- No file that both trees have at one path is skipped. -/
def NoneHidden (t d : DiskTree) : Prop :=
  ∀ x ∈ t.listing, kindOf x.2 = .file → ¬ Own x.1 → (∃ n, (x.1, n) ∈ d.listing) → skipped x.1.spelled = false

theorem classify_directory {size : Nat} (h : Signs hashChunk size t.listing sig) :
    classify hashChunk sig (.directory d) = .ok (classifyDir hashChunk sig d) := by
  unfold classify
  rw [h.kind]

theorem likeAnyOther_iff {size : Nat} (h : Signs hashChunk size t.listing sig) :
    LikeAnyOther hashChunk sig t d ↔ NoneHidden t d := by
  constructor
  · intro like x mem file foreign there
    by_contra hidden
    obtain ⟨reports, listed, r, among, path, state⟩ := like x mem file foreign (Bool.not_eq_false _ ▸ hidden) there
    cases (classify_directory h).symm.trans listed
    rcases mem_classifyDir.mp among with ⟨z, shown, -, rfl⟩ | ⟨e, -, -, rfl⟩
    · exact hidden (path ▸ (mem_compared.mp shown).2)
    · exact state rfl
  · intro none x mem file foreign hidden there
    rw [none x mem file foreign there] at hidden
    cases hidden

/-- For every tree, its signature as it is read back and every directory: both verifiers say that
the directory is the tree, and files are compared whatever their names begin like, exactly
when the directory is the tree, its own files hold no bytes, and every path of the tree is
compared and spelled like no other; or when it is not, and differs both in the sequence of
its blocks and as it is spelled. -/
theorem signature_matches_iff (t d : DiskTree) (blockSize : UInt32) (label : String) (sig : CavsSignature)
    (distinct : Distinct hashChunk (clamped blockSize).toNat t d)
    (read : decode hashChunk (encode hashChunk (signDir hashChunk t blockSize label)) = .ok sig) :
    ((verifyAgainst hashChunk sig (.directory d) = .ok () ↔ SameTree t d) ∧
      ((∃ reports, classify hashChunk sig (.directory d) = .ok reports ∧ ∀ r ∈ reports, r.state = .same) ↔
        SameTree t d) ∧
      LikeAnyOther hashChunk sig t d) ↔
    (SameTree t d ∧ OwnEmpty d ∧ Clear t) ∨
      (¬ SameTree t d ∧ pieces (clamped blockSize).toNat t ≠ pieces (clamped blockSize).toNat d ∧ ¬ ReadsAs t d ∧
        NoneHidden t d) := by
  have bounds := clamped_bounds blockSize
  have low : minBlockSize.toNat = 1024 := rfl
  have high : maxBlockSize.toNat = 67108864 := rfl
  have signed := signDir_signs hashChunk t blockSize label
  obtain ⟨rfl, few⟩ := decode_encode hashChunk (signDir_named t blockSize label) read
  rw [signed.entries, length_map, List.length_zipIdx] at few
  have fresh : Signs hashChunk (clamped blockSize).toNat d.listing
      (signDir hashChunk d (signDir hashChunk t blockSize label).blockSize
        (signDir hashChunk t blockSize label).sourceLabel) := by
    have size := UInt32.toNat_inj.mp signed.blockSize
    have again := signDir_signs hashChunk d (clamped blockSize)
      (signDir hashChunk t blockSize label).sourceLabel
    rw [clamped_clamped] at again
    rw [size]
    exact again
  have verified := verifyAgainst_iff (by omega) distinct signed fresh
  have classified : (∃ reports, classify hashChunk (signDir hashChunk t blockSize label) (.directory d) = .ok reports ∧
      ∀ r ∈ reports, r.state = .same) ↔ ReadsAs t d := by
    rw [← classifyDir_same_iff (by omega) (by omega) distinct signed few, classify_directory signed]
    constructor
    · rintro ⟨reports, listed, all⟩
      cases listed
      exact all
    · exact fun all => ⟨_, rfl, all⟩
  rw [verified, classified, likeAnyOther_iff signed]
  by_cases same : SameTree t d
  · have hidden : Clear t → NoneHidden t d := fun clear x mem _ _ _ => clear.kept x mem
    rw [same_pieces_iff (by omega) same, same_reads_iff same]
    constructor
    · rintro ⟨owns, clear, -⟩
      exact .inl ⟨same, owns.mpr same, clear.mpr same⟩
    · rintro (⟨-, owns, clear⟩ | ⟨other, -⟩)
      · exact ⟨⟨fun _ => same, fun _ => owns⟩, ⟨fun _ => same, fun _ => clear⟩, hidden clear⟩
      · exact absurd same other
  · constructor
    · rintro ⟨blocks, reads, none⟩
      exact .inr ⟨same, fun h => same (blocks.mp h), fun h => same (reads.mp h), none⟩
    · rintro (⟨there, -⟩ | ⟨-, blocks, reads, none⟩)
      · exact absurd there same
      · exact ⟨⟨fun h => absurd h blocks, fun h => absurd h same⟩, ⟨fun h => absurd h reads, fun h => absurd h same⟩, none⟩

end Exact

section Examples

/-- A tree of one file with one byte. -/
def oneFile (name : String) (sound : (Dir.file (strBytes name) [7] false .done).Sound) : DiskTree :=
  ⟨.file (strBytes name) [7] false .done, sound⟩

def firstName : DiskTree := oneFile "a" (by decide)

def secondName : DiskTree := oneFile "b" (by decide)

theorem names_evaluated :
    (pieces 1024 firstName = [[7]] ∧ pieces 1024 secondName = [[7]]) ∧
    decode numberHash (encode numberHash (signDir numberHash firstName 1024 "")) =
      .ok (signDir numberHash firstName 1024 "") ∧
    firstName.listing = [([[97]], .file [7] false)] ∧ secondName.listing = [([[98]], .file [7] false)] ∧
    verifyAgainst numberHash (signDir numberHash firstName 1024 "") (.directory secondName) = .ok () := by decide +kernel

theorem oneFile_pieces : pieces 1024 firstName = [[7]] ∧ pieces 1024 secondName = [[7]] := names_evaluated.1

theorem oneFile_distinct (d : DiskTree) (same : pieces 1024 d = [[7]]) : Distinct numberHash (clamped 1024).toNat firstName d := by
  have size : (clamped 1024).toNat = 1024 := by decide
  have content : contentOf firstName = contentOf d := by
    rw [← pieces_flatten (by decide : 0 < 1024), oneFile_pieces.1, ← same, pieces_flatten (by decide)]
  rw [size]
  refine ⟨fun _ => content, ?_⟩
  rw [oneFile_pieces.1, same]
  intro x hx y hy _
  rw [mem_singleton.mp hx, mem_singleton.mp hy]

theorem oneFile_reads : decode numberHash (encode numberHash (signDir numberHash firstName 1024 "")) =
    .ok (signDir numberHash firstName 1024 "") := names_evaluated.2.1

theorem firstName_listing : firstName.listing = [([[97]], .file [7] false)] := names_evaluated.2.2.1

theorem firstName_same : SameTree firstName firstName := by
  have foreign : ¬ Own [[97]] := by decide
  intro p node
  rw [firstName_listing]
  constructor
  · rintro ⟨n, mem, told⟩
    cases mem_singleton.mp mem
    exact ⟨foreign, _, mem, told⟩
  · exact And.right

/-- A tree is found to be itself. -/
theorem signature_matches_itself :
    (verifyAgainst numberHash (signDir numberHash firstName 1024 "") (.directory firstName) = .ok () ↔
        SameTree firstName firstName) ∧
      ((∃ reports, classify numberHash (signDir numberHash firstName 1024 "") (.directory firstName) = .ok reports ∧
        ∀ r ∈ reports, r.state = .same) ↔ SameTree firstName firstName) ∧
      LikeAnyOther numberHash (signDir numberHash firstName 1024 "") firstName firstName := by
  have owns : OwnEmpty firstName := by
    intro x mem own
    rw [firstName_listing] at mem
    cases mem_singleton.mp mem
    exact absurd own (by decide)
  have clear : Clear firstName := by
    refine ⟨fun x mem => ?_, fun x hx y hy _ => ?_⟩
    · rw [firstName_listing] at mem
      cases mem_singleton.mp mem
      decide
    · rw [firstName_listing] at hx hy
      rw [mem_singleton.mp hx, mem_singleton.mp hy]
  exact (signature_matches_iff firstName firstName 1024 "" _ (oneFile_distinct firstName oneFile_pieces.1)
    oneFile_reads).mpr (.inl ⟨firstName_same, owns, clear⟩)

/-- A file that was renamed passes the first verifier. -/
theorem rename_verifies :
    Distinct numberHash (clamped 1024).toNat firstName secondName ∧
      decode numberHash (encode numberHash (signDir numberHash firstName 1024 "")) =
        .ok (signDir numberHash firstName 1024 "") ∧
      ¬ (verifyAgainst numberHash (signDir numberHash firstName 1024 "") (.directory secondName) = .ok () ↔
        SameTree firstName secondName) := by
  obtain ⟨-, -, -, renamed, verified⟩ := names_evaluated
  refine ⟨oneFile_distinct secondName oneFile_pieces.2, oneFile_reads, fun same => ?_⟩
  obtain ⟨-, n, mem, -⟩ := (same.mp verified [[97]] (.file [7] false)).mp
    ⟨.file [7] false, by rw [firstName_listing]; exact .head _, rfl⟩
  rw [renamed] at mem
  exact absurd (congrArg Prod.fst (mem_singleton.mp mem)) (by decide : ([[97]] : RelPath) ≠ [[98]])

end Examples

end Cavs.Compare
