import Cavs.PatchPolicy
import Mathlib.Data.Nat.Log

/-!
# The ladder of patches

A sparse ladder has an edge over every aligned interval whose length is a power of two. It has
fewer edges than twice the versions, and a jump takes at most twice as many steps as the number
of versions has bits.
-/
namespace Cavs.PatchPolicy

inductive LadderMode where
  | aligned
  | dense
  deriving DecidableEq, Repr

/-- The loop over the starts of one level, which adds the length of the level to the start. -/
def alignedFrom (n d : Nat) : (fuel : Nat) → (start : Nat) → List (Nat × Nat)
  | 0, _ => []
  | fuel + 1, start => if start + d < n then (start, start + d) :: alignedFrom n d fuel (start + d) else []

def levelPairs (n d : Nat) : LadderMode → List (Nat × Nat)
  | .aligned => alignedFrom n d n 0
  | .dense => (List.range (n - d)).map fun start => (start, start + d)

/-- The loop over the levels, which doubles the length. -/
def levelsFrom (n : Nat) (mode : LadderMode) : (fuel : Nat) → (d : Nat) → List (Nat × Nat)
  | 0, _ => []
  | fuel + 1, d => if 0 < n ∧ d < n then levelPairs n d mode ++ levelsFrom n mode fuel (d * 2) else []

def pairLe (a b : Nat × Nat) : Bool := decide (a.1 < b.1 ∨ a.1 = b.1 ∧ a.2 ≤ b.2)

def ladderPairs (n : Nat) (mode : LadderMode) : List (Nat × Nat) :=
  ((levelsFrom n mode n 1).insertionSort fun a b => pairLe a b = true).dedup

/-! ## The edges -/
section Edges
variable {n d fuel start : Nat} {mode : LadderMode} {p : Nat × Nat}

theorem mem_alignedFrom (pos : 0 < d) (enough : n ≤ start + fuel) :
    p ∈ alignedFrom n d fuel start ↔ ∃ k, p = (start + k * d, start + k * d + d) ∧ p.2 < n := by
  induction fuel generalizing start with
  | zero =>
      refine ⟨fun mem => absurd mem List.not_mem_nil, fun ⟨k, same, less⟩ => ?_⟩
      rw [same] at less
      dsimp only at less
      omega
  | succ fuel ih =>
      rw [alignedFrom]
      by_cases more : start + d < n
      · rw [if_pos more, List.mem_cons, ih (by omega)]
        constructor
        · rintro (rfl | ⟨k, rfl, less⟩)
          · exact ⟨0, by simp, more⟩
          · have shift : start + d + k * d = start + (k + 1) * d := by rw [Nat.succ_mul]; omega
            exact ⟨k + 1, by rw [shift], shift ▸ less⟩
        · rintro ⟨k, rfl, less⟩
          cases k with
          | zero => exact .inl (by simp)
          | succ k =>
              have shift : start + (k + 1) * d = start + d + k * d := by rw [Nat.succ_mul]; omega
              exact .inr ⟨k, by rw [shift], shift ▸ less⟩
      · rw [if_neg more]
        refine ⟨fun mem => absurd mem List.not_mem_nil, fun ⟨k, same, less⟩ => ?_⟩
        rw [same] at less
        dsimp only at less
        omega

theorem mem_levelsFrom (pos : 0 < d) (enough : n ≤ d + fuel) :
    p ∈ levelsFrom n mode fuel d ↔ ∃ l, d * 2 ^ l < n ∧ p ∈ levelPairs n (d * 2 ^ l) mode := by
  induction fuel generalizing d with
  | zero =>
      refine ⟨fun mem => absurd mem List.not_mem_nil, fun ⟨l, less, _⟩ => ?_⟩
      have le : d * 1 ≤ d * 2 ^ l := Nat.mul_le_mul_left d Nat.one_le_two_pow
      omega
  | succ fuel ih =>
      have double : ∀ l, d * 2 * 2 ^ l = d * 2 ^ (l + 1) := fun l => by rw [Nat.pow_succ, Nat.mul_assoc, Nat.mul_comm 2]
      rw [levelsFrom]
      by_cases more : 0 < n ∧ d < n
      · rw [if_pos more, List.mem_append, ih (by omega) (by omega)]
        constructor
        · rintro (here | ⟨l, less, later⟩)
          · exact ⟨0, by omega, by simpa using here⟩
          · exact ⟨l + 1, double l ▸ less, double l ▸ later⟩
        · rintro ⟨l, less, mem⟩
          cases l with
          | zero => exact .inl (by simpa using mem)
          | succ l => exact .inr ⟨l, (double l).symm ▸ less, (double l).symm ▸ mem⟩
      · rw [if_neg more]
        refine ⟨fun mem => absurd mem List.not_mem_nil, fun ⟨l, less, _⟩ => ?_⟩
        have le : d * 1 ≤ d * 2 ^ l := Nat.mul_le_mul_left d Nat.one_le_two_pow
        omega

theorem level_pos (l : Nat) : 0 < 1 * 2 ^ l := by
  rw [Nat.one_mul]
  exact Nat.two_pow_pos l

/-- An interval of a power of two that starts at a multiple of it. -/
def Aligned (p : Nat × Nat) : Prop := ∃ l k, p = (k * 2 ^ l, k * 2 ^ l + 2 ^ l)

/-- The edges of the ladder are the aligned intervals between versions. -/
theorem mem_ladderPairs : p ∈ ladderPairs n .aligned ↔ Aligned p ∧ p.2 < n := by
  rw [ladderPairs, List.mem_dedup, List.mem_insertionSort, mem_levelsFrom Nat.one_pos (by omega)]
  constructor
  · rintro ⟨l, -, mem⟩
    obtain ⟨k, same, less⟩ := (mem_alignedFrom (level_pos l) (by omega)).mp mem
    exact ⟨⟨l, k, by simpa using same⟩, less⟩
  · rintro ⟨⟨l, k, rfl⟩, less⟩
    dsimp only at less
    exact ⟨l, by omega, (mem_alignedFrom (level_pos l) (by omega)).mpr ⟨k, by simp, less⟩⟩

theorem alignedFrom_length (inside : start < n) : start + (alignedFrom n d fuel start).length * d < n := by
  induction fuel generalizing start with
  | zero => simpa [alignedFrom] using inside
  | succ fuel ih =>
      rw [alignedFrom]
      by_cases more : start + d < n
      · rw [if_pos more, List.length_cons, Nat.succ_mul]
        have rest := ih more
        omega
      · rw [if_neg more]
        simpa using inside

/-- A level has half as many edges as the one before, so all of them have twice those of the first. -/
theorem levelsFrom_length (pos : 0 < n) :
    (levelsFrom n .aligned fuel d).length * d ≤ 2 * (n - 1) := by
  induction fuel generalizing d with
  | zero => simp [levelsFrom]
  | succ fuel ih =>
      rw [levelsFrom]
      by_cases more : 0 < n ∧ d < n
      · have level : 0 + (alignedFrom n d n 0).length * d < n := alignedFrom_length pos
        have rest := @ih (d * 2)
        rw [if_pos more, List.length_append, Nat.add_mul, levelPairs]
        rw [← Nat.mul_assoc] at rest
        omega
      · rw [if_neg more]
        simp

theorem ladderPairs_length (pos : 1 ≤ n) : (ladderPairs n .aligned).length < 2 * n := by
  have shorter : (ladderPairs n .aligned).length ≤ (levelsFrom n .aligned n 1).length := by
    rw [ladderPairs, ← List.length_insertionSort (fun a b => pairLe a b = true) (levelsFrom n .aligned n 1)]
    exact (List.dedup_sublist _).length_le
  have total := @levelsFrom_length n 1 n pos
  omega

end Edges

/-! ## The paths -/
section Paths
variable {n i j u : Nat} {path : List (Nat × Nat)}

/-- A path over pairs. -/
def Joins (Edge : Nat × Nat → Prop) : Nat → Nat → List (Nat × Nat) → Prop
  | i, j, [] => i = j
  | i, j, p :: rest => Edge p ∧ p.1 = i ∧ Joins Edge p.2 j rest

theorem joins_append {Edge : Nat × Nat → Prop} {first second : List (Nat × Nat)} (one : Joins Edge i u first)
    (two : Joins Edge u j second) : Joins Edge i j (first ++ second) := by
  induction first generalizing i with
  | nil => exact (show i = u from one) ▸ two
  | cons p first ih => exact ⟨one.1, one.2.1, ih one.2.2⟩

/-- Aligned intervals stay aligned when every version counts twice. -/
theorem joins_double (joins : Joins Aligned i j path) :
    Joins Aligned (2 * i) (2 * j) (path.map fun p => (2 * p.1, 2 * p.2)) := by
  induction path generalizing i with
  | nil => exact congrArg (2 * ·) joins
  | cons p path ih =>
      obtain ⟨⟨l, k, rfl⟩, rfl, rest⟩ := joins
      have double : 2 * (k * 2 ^ l) = k * 2 ^ (l + 1) := by rw [Nat.pow_succ]; ac_rfl
      have end_ : 2 * (k * 2 ^ l + 2 ^ l) = k * 2 ^ (l + 1) + 2 ^ (l + 1) := by
        rw [Nat.mul_add, double, Nat.pow_succ, Nat.mul_comm 2 (2 ^ l)]
      exact ⟨⟨l + 1, k, Prod.ext double end_⟩, rfl, ih rest⟩

theorem aligned_one : Aligned (i, i + 1) := ⟨0, i, by simp⟩

/-- Round the start up and the end down to even versions, halve, and go on from there. -/
theorem exists_joins (bits : Nat) (le : i ≤ j) (below : j < 2 ^ bits) :
    ∃ path, Joins Aligned i j path ∧ path.length ≤ 2 * bits := by
  induction bits generalizing i j with
  | zero => exact ⟨[], show i = j by omega, by simp⟩
  | succ bits ih =>
      by_cases half : (i + 1) / 2 ≤ j / 2
      · obtain ⟨path, joins, short⟩ := ih half (by omega)
        have up : ∃ path, Joins Aligned i (2 * ((i + 1) / 2)) path ∧ path.length ≤ 1 := by
          by_cases even : i = 2 * ((i + 1) / 2)
          · exact ⟨[], even, by simp⟩
          · exact ⟨[(i, i + 1)], ⟨aligned_one, rfl, show i + 1 = _ by omega⟩, by simp⟩
        have down : ∃ path, Joins Aligned (2 * (j / 2)) j path ∧ path.length ≤ 1 := by
          by_cases even : 2 * (j / 2) = j
          · exact ⟨[], even, by simp⟩
          · exact ⟨[(2 * (j / 2), 2 * (j / 2) + 1)], ⟨aligned_one, rfl, show 2 * (j / 2) + 1 = j by omega⟩, by simp⟩
        obtain ⟨rise, climbs, one⟩ := up
        obtain ⟨fall, sinks, two⟩ := down
        refine ⟨rise ++ (path.map (fun p => (2 * p.1, 2 * p.2)) ++ fall), ?_, ?_⟩
        · exact joins_append climbs (joins_append (joins_double joins) sinks)
        · simp only [List.length_append, List.length_map]
          omega
      · exact ⟨[], show i = j by omega, by simp⟩

theorem Joins.le (joins : Joins Aligned i j path) : i ≤ j ∧ ∀ p ∈ path, p.2 ≤ j := by
  induction path generalizing i with
  | nil => exact ⟨Nat.le_of_eq joins, by simp⟩
  | cons p path ih =>
      obtain ⟨⟨l, k, rfl⟩, rfl, rest⟩ := joins
      obtain ⟨le, each⟩ := ih rest
      exact ⟨Nat.le_trans (Nat.le_add_right _ _) le, List.forall_mem_cons.mpr ⟨le, each⟩⟩

theorem Joins.within (joins : Joins Aligned i j path) (less : j < n) :
    Joins (· ∈ ladderPairs n .aligned) i j path := by
  have each := joins.le.2
  induction path generalizing i with
  | nil => exact joins
  | cons p path ih =>
      obtain ⟨here, rest⟩ := List.forall_mem_cons.mp each
      exact ⟨mem_ladderPairs.mpr ⟨joins.1, by omega⟩, joins.2.1, ih joins.2.2 rest⟩

theorem exists_ladder (le : i ≤ j) (less : j < n) :
    ∃ path, Joins (· ∈ ladderPairs n .aligned) i j path ∧ path.length ≤ 2 * Nat.clog 2 n := by
  obtain ⟨path, joins, short⟩ :=
    exists_joins (Nat.clog 2 n) le (Nat.lt_of_lt_of_le less (Nat.le_pow_clog (by decide) n))
  exact ⟨path, joins.within less, short⟩

end Paths
/-! ## The law of the ladder -/
section Law
variable {n i j : Nat} {edges : List PatchEdge} {edgeIdxs : List Nat} {bytesOf : PatchEdge → Option UInt64}

/-- The kept edges of a graph are those over some pairs. -/
structure Lays (edges : List PatchEdge) (edgeIdxs : List Nat) (pairs : List (Nat × Nat)) : Prop where
  inside : ∀ e ∈ edgeIdxs, e < edges.length
  spans : ∀ p, p ∈ pairs ↔ ∃ e ∈ edgeIdxs, ∃ edge, edges[e]? = some edge ∧ (edge.fromVersion, edge.toVersion) = p

theorem Lays.follows {pairs path : List (Nat × Nat)} (lays : Lays edges edgeIdxs pairs)
    (joins : Joins (· ∈ pairs) i j path) :
    ∃ along, Follows edges i j along ∧ (∀ e ∈ along, e ∈ edgeIdxs) ∧ along.length = path.length := by
  induction path generalizing i with
  | nil => exact ⟨[], joins, by simp, rfl⟩
  | cons p path ih =>
      obtain ⟨mem, rfl, rest⟩ := joins
      obtain ⟨e, kept, edge, there, rfl⟩ := (lays.spans p).mp mem
      obtain ⟨along, follows, each, same⟩ := ih rest
      exact ⟨e :: along, ⟨edge, there, rfl, follows⟩, List.forall_mem_cons.mpr ⟨kept, each⟩, congrArg (· + 1) same⟩

/-- Every kept edge weighs one. -/
def UnitCosts (edges : List PatchEdge) (edgeIdxs : List Nat) (bytesOf : PatchEdge → Option UInt64) : Prop :=
  ∀ e ∈ edgeIdxs, weightOf edges bytesOf e = 1

theorem UnitCosts.weight_eq {along : List Nat} (unit : UnitCosts edges edgeIdxs bytesOf)
    (kept : ∀ e ∈ along, e ∈ edgeIdxs) : weight edges bytesOf along = along.length := by
  induction along with
  | nil => rfl
  | cons e along ih =>
      obtain ⟨here, rest⟩ := List.forall_mem_cons.mp kept
      rw [weight, List.map_cons, List.sum_cons, unit e here, List.length_cons, ← ih rest, Nat.add_comm]
      rfl

theorem Follows.pos {along : List Nat} (follows : Follows edges i j along) (less : i < j) : 1 ≤ along.length := by
  cases along with
  | nil => exact absurd follows (Nat.ne_of_lt less)
  | cons e along => exact Nat.le_add_left 1 _

theorem Joins.pos {Edge : Nat × Nat → Prop} {path : List (Nat × Nat)} (joins : Joins Edge i j path) (less : i < j) :
    1 ≤ path.length := by
  cases path with
  | nil => exact absurd joins (Nat.ne_of_lt less)
  | cons p path => exact Nat.le_add_left 1 _

/-- With unit costs the search finds a path as short as the ladder has one. -/
theorem cheapestPath_ladder (bound : n ≤ 2 ^ 63) (lays : Lays edges edgeIdxs (ladderPairs n .aligned))
    (unit : UnitCosts edges edgeIdxs bytesOf) (less : i < j) (inside : j < n) :
    ∃ along, cheapestPath edges edgeIdxs i j bytesOf = some along ∧ Follows edges i j along ∧
      (∀ e ∈ along, e ∈ edgeIdxs) ∧ 1 ≤ along.length ∧ along.length ≤ 2 * Nat.clog 2 n := by
  obtain ⟨path, joins, short⟩ := exists_ladder less.le inside
  obtain ⟨other, leads, within, same⟩ := lays.follows joins
  have bits : Nat.clog 2 n ≤ 63 := Nat.clog_le_of_le_pow bound
  have light := unit.weight_eq within
  rcases @cheapestPath_spec edges edgeIdxs bytesOf i j less.ne with ⟨along, found, chosen⟩ | ⟨-, heavy⟩
  · obtain ⟨follows, kept, least⟩ := chosen.spec
    have weighs := unit.weight_eq kept
    have le := least other leads within
    exact ⟨along, found, follows, kept, follows.pos less, by omega⟩
  · have above := heavy other leads within
    unfold MAX at above
    omega

/-- The aligned ladder over any number of versions, and the search over it. -/
theorem ladder_law (n : Nat) (pos : 1 ≤ n) (bound : n ≤ 2 ^ 63) :
    (∀ i, i + 1 < n → (i, i + 1) ∈ ladderPairs n .aligned) ∧
      (ladderPairs n .aligned).length < 2 * n ∧ (ladderPairs n .aligned).Nodup ∧
      (∀ p ∈ ladderPairs n .aligned, p.1 < p.2 ∧ p.2 < n) ∧
      ∀ i j, i < j → j < n →
        (∃ path, Joins (· ∈ ladderPairs n .aligned) i j path ∧ 1 ≤ path.length ∧ path.length ≤ 2 * Nat.clog 2 n) ∧
          ∀ edges edgeIdxs bytesOf, Lays edges edgeIdxs (ladderPairs n .aligned) → UnitCosts edges edgeIdxs bytesOf →
            ∃ along, cheapestPath edges edgeIdxs i j bytesOf = some along ∧ Follows edges i j along ∧
              (∀ e ∈ along, e ∈ edgeIdxs) ∧ 1 ≤ along.length ∧ along.length ≤ 2 * Nat.clog 2 n := by
  refine ⟨fun i less => mem_ladderPairs.mpr ⟨aligned_one, less⟩, ladderPairs_length pos, List.nodup_dedup _, ?_, ?_⟩
  · intro p mem
    obtain ⟨⟨l, k, rfl⟩, less⟩ := mem_ladderPairs.mp mem
    exact ⟨Nat.lt_add_of_pos_right (Nat.two_pow_pos l), less⟩
  · intro i j less inside
    obtain ⟨path, joins, short⟩ := exists_ladder less.le inside
    exact ⟨⟨path, joins, joins.pos less, short⟩,
      fun edges edgeIdxs bytesOf lays unit => cheapestPath_ladder bound lays unit less inside⟩

/-- The ladder over nine versions, each edge as dear as any other. -/
def nineEdges : List PatchEdge := (ladderPairs 9 .aligned).map fun p => ⟨p.1, p.2, []⟩

theorem nineEdges_lays : Lays nineEdges (List.range nineEdges.length) (ladderPairs 9 .aligned) where
  inside e mem := List.mem_range.mp mem
  spans p := by
    constructor
    · intro mem
      obtain ⟨e, less, rfl⟩ := List.getElem_of_mem mem
      have there : nineEdges[e]? = some ⟨(ladderPairs 9 .aligned)[e].1, (ladderPairs 9 .aligned)[e].2, []⟩ := by
        rw [nineEdges, List.getElem?_map, List.getElem?_eq_getElem less, Option.map_some]
      exact ⟨e, List.mem_range.mpr (List.getElem?_eq_some_iff.mp there).1, _, there, rfl⟩
    · rintro ⟨e, -, edge, there, rfl⟩
      obtain ⟨p, mem, rfl⟩ := List.mem_map.mp (List.mem_of_getElem? there)
      exact mem

theorem ladder_law_nine : ∃ along, cheapestPath nineEdges (List.range nineEdges.length) 0 8 (fun _ => some 1) = some along ∧
    Follows nineEdges 0 8 along ∧ 1 ≤ along.length ∧ along.length ≤ 2 * Nat.clog 2 9 := by
  have unit : UnitCosts nineEdges (List.range nineEdges.length) fun _ => some 1 := by
    intro e _
    rw [weightOf]
    cases nineEdges[e]? with
    | none => rfl
    | some edge => rfl
  obtain ⟨-, -, -, -, paths⟩ := ladder_law 9 (by decide) (by decide)
  obtain ⟨along, found, follows, -, short⟩ := (paths 0 8 (by decide) (by decide)).2 _ _ _ nineEdges_lays unit
  exact ⟨along, found, follows, short⟩

end Law
end Cavs.PatchPolicy
