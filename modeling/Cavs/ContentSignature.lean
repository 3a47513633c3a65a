import Cavs.Container

/-!
# What a content signature binds

Chunk hashes and inner nodes are hashes alike, and a node left over at a level goes up as it
is, so lists of different lengths may have one root. The signed message has the number of
chunks beside the root, and for that number the root says which chunks, level by level.
-/
namespace Cavs
open FileProg (Bytes)
open ByteScan

section Binding
variable {hashChunk : Bytes → ChunkHash}

/-- What is hashed for the nodes one level up. -/
def pairInputs : List ChunkHash → List Bytes
  | a :: b :: rest => (a.1 ++ b.1) :: pairInputs rest
  | _ => []

variable (hashChunk) in
/-- What is hashed on the way up to one node. -/
def levelInputs : Nat → List ChunkHash → List Bytes
  | 0, _ => []
  | fuel + 1, level =>
      if level.length > 1 then pairInputs level ++ levelInputs fuel (merklePairs hashChunk level) else []

variable (hashChunk) in
/-- What is hashed for the root of a list. -/
def rootInputs (hashes : List ChunkHash) : List Bytes := levelInputs hashChunk hashes.length hashes

variable (hashChunk) in
/-- No input of one list has the hash of another input of the other list. -/
def InjectiveOn (inputs inputs' : List Bytes) : Prop :=
  ∀ b ∈ inputs, ∀ b' ∈ inputs', hashChunk b = hashChunk b' → b = b'

theorem InjectiveOn.sublist {inputs inputs' some_ some_' : List Bytes} (apart : InjectiveOn hashChunk inputs inputs')
    (left : some_ ⊆ inputs) (right : some_' ⊆ inputs') : InjectiveOn hashChunk some_ some_' :=
  fun b mem b' mem' => apart b (left mem) b' (right mem')

theorem hashes_of_append {a b a' b' : ChunkHash} (same : a.1 ++ b.1 = a'.1 ++ b'.1) : a = a' ∧ b = b' := by
  obtain ⟨left, right⟩ := List.append_inj same (a.2.trans a'.2.symm)
  exact ⟨Subtype.ext left, Subtype.ext right⟩

/-- One level down: the nodes of two levels of one length come from the same nodes. -/
theorem merklePairs_injective {xs ys : List ChunkHash} (long : xs.length = ys.length)
    (apart : InjectiveOn hashChunk (pairInputs xs) (pairInputs ys))
    (same : merklePairs hashChunk xs = merklePairs hashChunk ys) : xs = ys := by
  induction xs using pairInputs.induct generalizing ys with
  | case1 a b rest ih =>
      match ys, long with
      | a' :: b' :: rest', long =>
          simp only [merklePairs, List.cons.injEq] at same
          obtain ⟨rfl, rfl⟩ := hashes_of_append (apart _ (.head _) _ (.head _) same.1)
          have above := apart.sublist (List.subset_cons_self _ _) (List.subset_cons_self _ _)
          rw [ih (by simpa using long) above same.2]
  | case2 xs short =>
      match xs, ys, short, long with
      | [], [], _, _ => rfl
      | [_], [_], _, _ => exact same
      | a :: b :: rest, _, short, _ => exact absurd rfl (short a b rest)

theorem merkleLevels_injective {fuel : Nat} {xs ys : List ChunkHash} (long : xs.length = ys.length)
    (apart : InjectiveOn hashChunk (levelInputs hashChunk fuel xs) (levelInputs hashChunk fuel ys))
    (same : merkleLevels hashChunk fuel xs = merkleLevels hashChunk fuel ys) : xs = ys := by
  induction fuel generalizing xs ys with
  | zero => exact same
  | succ fuel ih =>
      rw [merkleLevels, merkleLevels, ← long] at same
      rw [levelInputs, levelInputs, ← long] at apart
      by_cases many : xs.length > 1
      · rw [if_pos many, if_pos many] at same apart
        have long' : (merklePairs hashChunk xs).length = (merklePairs hashChunk ys).length := by
          rw [merklePairs_length, merklePairs_length, long]
        have above := ih long' (apart.sublist (List.subset_append_right _ _) (List.subset_append_right _ _)) same
        exact merklePairs_injective long (apart.sublist (List.subset_append_left _ _) (List.subset_append_left _ _)) above
      · rwa [if_neg many, if_neg many] at same

/-- On the way up one node is left, and none of an empty list. -/
theorem merkleLevels_length {fuel : Nat} {level : List ChunkHash} (enough : level.length ≤ fuel + 1) :
    (merkleLevels hashChunk fuel level).length = min level.length 1 := by
  fun_induction merkleLevels with
  | case1 level => omega
  | case2 fuel level many ih =>
      rw [ih (by rw [merklePairs_length]; omega), merklePairs_length]
      omega
  | case3 fuel level few => omega

theorem merkleLevels_root {xs : List ChunkHash} (some_ : xs ≠ []) :
    merkleLevels hashChunk xs.length xs = [merkleRoot hashChunk xs] := by
  have one : (merkleLevels hashChunk xs.length xs).length = 1 := by
    rw [merkleLevels_length (Nat.le_succ _)]
    have := List.length_pos_iff.mpr some_
    omega
  obtain ⟨root, levels⟩ := List.length_eq_one_iff.mp one
  rw [merkleRoot, levels]

theorem merkleRoot_injective {xs ys : List ChunkHash} (long : xs.length = ys.length)
    (apart : InjectiveOn hashChunk (rootInputs hashChunk xs) (rootInputs hashChunk ys))
    (same : merkleRoot hashChunk xs = merkleRoot hashChunk ys) : xs = ys := by
  by_cases none_ : xs = []
  · rw [none_] at long ⊢
    exact (List.length_eq_zero_iff.mp long.symm).symm
  · have none_' : ys ≠ [] := fun empty => none_ (List.length_eq_zero_iff.mp (long.trans (empty ▸ rfl)))
    have above := @merkleLevels_root hashChunk xs none_
    rw [same, ← merkleLevels_root none_', ← long] at above
    rw [rootInputs, rootInputs, ← long] at apart
    exact merkleLevels_injective long apart above

/-- One message is signed for one chunk list only, unless two of the 64-byte inputs hashed for the
two roots collide. -/
theorem content_signature_binds (hashChunk : Bytes → ChunkHash) (xs ys : List ChunkHash)
    -- lengths are machine words
    (short : xs.length < 2 ^ 64) (short' : ys.length < 2 ^ 64)
    (apart : InjectiveOn hashChunk (rootInputs hashChunk xs) (rootInputs hashChunk ys))
    (same : contentSignatureMessage (merkleRoot hashChunk xs) xs.length =
      contentSignatureMessage (merkleRoot hashChunk ys) ys.length) : xs = ys := by
  unfold contentSignatureMessage at same
  have signed := List.append_cancel_left same
  obtain ⟨root, count⟩ := List.append_inj signed ((merkleRoot hashChunk xs).2.trans (merkleRoot hashChunk ys).2.symm)
  have long : xs.length = ys.length := by
    rw [← ofLe_le (show xs.length < 256 ^ 8 from short), ← ofLe_le (show ys.length < 256 ^ 8 from short'), count]
  exact merkleRoot_injective long apart (Subtype.ext root)

theorem content_signature_binds_three :
    [numberHash [1], numberHash [2], numberHash [3]] = [numberHash [1], numberHash [2], numberHash [3]] :=
  content_signature_binds (fun b => numberHash (b.drop 32)) [numberHash [1], numberHash [2], numberHash [3]]
    [numberHash [1], numberHash [2], numberHash [3]] (by decide) (by decide) (by unfold InjectiveOn; decide) rfl

end Binding
end Cavs
