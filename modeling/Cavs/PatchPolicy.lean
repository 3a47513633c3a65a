import Cavs.LeastPath
import Mathlib.Algebra.BigOperators.Group.Finset.Piecewise
import Mathlib.Algebra.Ring.Nat
import Mathlib.Data.List.Sort
import Mathlib.Data.List.Dedup

/-!
# Patch graphs and their cheapest paths

A patch policy keeps some of the edges of a graph of versions. The cheapest path over them has
the fewest bytes, and the fewest steps among these; an edge without bytes counts as one.
-/
namespace Cavs.PatchPolicy
open LeastPath

structure EdgeMeasure where
  engine : String
  compressedPatchBytes : UInt64
  applyMs : UInt64
  verifyMs : UInt64
  verified : Bool
  deriving DecidableEq, Repr

structure PatchEdge where
  fromVersion : Nat
  toVersion : Nat
  measures : List EdgeMeasure
  deriving DecidableEq, Repr

namespace PatchEdge

def bytes (edge : PatchEdge) (engine : String) : Option UInt64 :=
  (edge.measures.find? fun m => decide (m.engine = engine ∧ m.verified = true)).map EdgeMeasure.compressedPatchBytes

def measure (edge : PatchEdge) (engine : String) : Option EdgeMeasure :=
  edge.measures.find? fun m => decide (m.engine = engine)

end PatchEdge

/-- `u64::MAX`, where a sum of bytes stays. -/
def MAX : Nat := 18446744073709551615

/-- Bytes first, then steps. -/
abbrev Cost : Type := Nat ×ₗ Nat

structure Hop where
  next : Nat
  edge : Nat
  bytes : UInt64
  deriving DecidableEq, Repr

/-- The hop over an edge of the list; structure-only edges weigh one. -/
def hopOf (edges : List PatchEdge) (bytesOf : PatchEdge → Option UInt64) (u e : Nat) : Option Hop :=
  edges[e]?.bind fun edge =>
    if edge.fromVersion = u then some ⟨edge.toVersion, e, (bytesOf edge).getD 1⟩ else none

def network (edges : List PatchEdge) (edgeIdxs : List Nat) (bytesOf : PatchEdge → Option UInt64) : Net Nat Hop Cost where
  arcs u := edgeIdxs.filterMap (hopOf edges bytesOf u)
  dst := Hop.next
  extend k hop := toLex (min ((ofLex k).1 + hop.bytes.toNat) MAX, (ofLex k).2 + 1)
  zero := toLex (0, 0)
  top := toLex (MAX, MAX)

/-- The edges along the cheapest path. A search that pops every entry once takes no more turns
than there are kept edges, and one; the steps of the cost are the edges to go back over. -/
def cheapestPath (edges : List PatchEdge) (edgeIdxs : List Nat) (i j : Nat)
    (bytesOf : PatchEdge → Option UInt64) : Option (List Nat) :=
  if i = j then some []
  else
    let net := network edges edgeIdxs bytesOf
    let s := net.search j (edgeIdxs.length + 1) (net.start i)
    if (ofLex (s.best j)).1 = MAX then none
    else (backtrack i s.prev (ofLex (s.best j)).2 j []).map fun hops => hops.map Hop.edge

/-- A path over edges of the list, named by their places in it. -/
def Follows (edges : List PatchEdge) : Nat → Nat → List Nat → Prop
  | i, j, [] => i = j
  | i, j, e :: rest => ∃ edge, edges[e]? = some edge ∧ edge.fromVersion = i ∧ Follows edges edge.toVersion j rest

def weightOf (edges : List PatchEdge) (bytesOf : PatchEdge → Option UInt64) (e : Nat) : Nat :=
  ((edges[e]?.bind bytesOf).getD 1).toNat

def weight (edges : List PatchEdge) (bytesOf : PatchEdge → Option UInt64) (path : List Nat) : Nat :=
  (path.map (weightOf edges bytesOf)).sum

section Network
variable {edges : List PatchEdge} {edgeIdxs : List Nat} {bytesOf : PatchEdge → Option UInt64} {i j u e : Nat}
  {path : List Nat} {hop : Hop} {hops : List Hop}

/-- A sum that has not reached its ceiling. -/
def Below (k : Cost) : Prop := (ofLex k).1 < MAX

theorem network_lawful : (network edges edgeIdxs bytesOf).Lawful Below where
  good_zero := show 0 < MAX by decide
  zero_le k := Prod.Lex.le_iff.mpr (by
    rcases Nat.eq_zero_or_pos (ofLex k).1 with zero | pos
    · exact .inr ⟨zero.symm, Nat.zero_le _⟩
    · exact .inl pos)
  lt_extend := by
    intro k hop less
    have bound : (ofLex k).1 ≤ MAX := by
      rcases Prod.Lex.lt_iff.mp less with lt | ⟨same, -⟩
      · exact lt.le
      · exact same.le
    refine Prod.Lex.lt_iff.mpr ?_
    simp only [network, ofLex_toLex]
    omega
  good_of_extend := by
    intro k hop good
    simp only [Below, network, ofLex_toLex] at good ⊢
    omega
  extend_le := by
    intro a k hop le good
    simp only [Below, network, ofLex_toLex] at good
    refine Prod.Lex.le_iff.mpr ?_
    simp only [network, ofLex_toLex]
    rcases Prod.Lex.le_iff.mp le with lt | ⟨same, steps⟩ <;> omega
  good_of_le := by
    intro a k le good
    unfold Below at good ⊢
    rcases Prod.Lex.le_iff.mp le with lt | ⟨same, -⟩ <;> omega
  lt_top := by
    intro k good
    exact Prod.Lex.lt_iff.mpr (.inl good)

/-- The kept edges are shared out over the nodes they leave. -/
theorem sum_arcs_le (nodes : Finset Nat) (edgeIdxs : List Nat) :
    ∑ u ∈ nodes, ((network edges edgeIdxs bytesOf).arcs u).length ≤ edgeIdxs.length := by
  induction edgeIdxs with
  | nil => simp [network]
  | cons e rest ih =>
      have one : ∑ u ∈ nodes, (hopOf edges bytesOf u e).toList.length ≤ 1 := by
        cases there : edges[e]? with
        | none => simp [hopOf, there]
        | some edge =>
            have single : ∀ u ∈ nodes, (hopOf edges bytesOf u e).toList.length = if edge.fromVersion = u then 1 else 0 := by
              intro u _
              simp only [hopOf, there, Option.bind_some]
              split <;> rfl
            rw [Finset.sum_congr rfl single, Finset.sum_ite_eq nodes edge.fromVersion]
            split <;> omega
      have split_ : ∀ u ∈ nodes, ((network edges (e :: rest) bytesOf).arcs u).length
          = (hopOf edges bytesOf u e).toList.length + ((network edges rest bytesOf).arcs u).length := by
        intro u _
        simp only [network, List.filterMap_cons]
        cases hopOf edges bytesOf u e with
        | none => simp
        | some hop => simp [Nat.add_comm]
      rw [Finset.sum_congr rfl split_, Finset.sum_add_distrib, List.length_cons]
      omega

theorem hopOf_some (there : hopOf edges bytesOf u e = some hop) : ∃ edge, edges[e]? = some edge ∧
    edge.fromVersion = u ∧ hop = ⟨edge.toVersion, e, (bytesOf edge).getD 1⟩ := by
  obtain ⟨edge, at_, gives⟩ := Option.bind_eq_some_iff.mp there
  split at gives
  · next same => exact ⟨edge, at_, same, (Option.some.inj gives).symm⟩
  · exact absurd gives (Option.some_ne_none _).symm

theorem mem_arcs : hop ∈ (network edges edgeIdxs bytesOf).arcs u ↔
    hop.edge ∈ edgeIdxs ∧ hopOf edges bytesOf u hop.edge = some hop := by
  refine List.mem_filterMap.trans ⟨fun ⟨e, kept, there⟩ => ?_, fun ⟨kept, there⟩ => ⟨hop.edge, kept, there⟩⟩
  obtain ⟨edge, -, -, rfl⟩ := hopOf_some there
  exact ⟨kept, there⟩

theorem follows_append {first second : List Nat} : Follows edges i j (first ++ second) ↔
    ∃ u, Follows edges i u first ∧ Follows edges u j second := by
  induction first generalizing i with
  | nil => exact ⟨fun h => ⟨i, rfl, h⟩, fun ⟨u, same, h⟩ => same ▸ h⟩
  | cons e first ih =>
      constructor
      · rintro ⟨edge, there, leaves, rest⟩
        obtain ⟨u, one, two⟩ := ih.mp rest
        exact ⟨u, ⟨edge, there, leaves, one⟩, two⟩
      · rintro ⟨u, ⟨edge, there, leaves, one⟩, two⟩
        exact ⟨edge, there, leaves, ih.mpr ⟨u, one, two⟩⟩

@[simp] theorem weight_append {first second : List Nat} :
    weight edges bytesOf (first ++ second) = weight edges bytesOf first + weight edges bytesOf second := by
  rw [weight, List.map_append, List.sum_append]
  rfl

/-- A path of hops is a path of kept edges, at their weight until it saturates. -/
theorem path_follows (leads : Net.Path (network edges edgeIdxs bytesOf) i u hops) :
    Follows edges i u (hops.map Hop.edge) ∧ (∀ e ∈ hops.map Hop.edge, e ∈ edgeIdxs) ∧
      (network edges edgeIdxs bytesOf).cost hops =
        toLex (min (weight edges bytesOf (hops.map Hop.edge)) MAX, hops.length) := by
  induction leads with
  | nil => exact ⟨rfl, by simp, rfl⟩
  | @snoc u hops hop leads arc ih =>
      obtain ⟨follows, kept, cost⟩ := ih
      obtain ⟨inside, there⟩ := mem_arcs.mp arc
      obtain ⟨edge, at_, leaves, made⟩ := hopOf_some there
      have ends : (network edges edgeIdxs bytesOf).dst hop = edge.toVersion := by rw [made]; rfl
      have bytes : weightOf edges bytesOf hop.edge = hop.bytes.toNat := by
        rw [weightOf, at_, made]
        rfl
      rw [List.map_append, List.map_singleton]
      refine ⟨follows_append.mpr ⟨u, follows, edge, at_, leaves, ends.symm⟩, ?_, ?_⟩
      · intro e mem
        rcases List.mem_append.mp mem with old | new
        · exact kept e old
        · rwa [List.mem_singleton.mp new]
      · rw [cost_snoc, cost, weight_append]
        simp only [network, ofLex_toLex, weight, List.map_singleton, List.sum_singleton, bytes, List.length_append,
          List.length_singleton]
        congr 2
        omega

theorem follows_path (bytesOf : PatchEdge → Option UInt64) (follows : Follows edges i u path) (kept : ∀ e ∈ path, e ∈ edgeIdxs) :
    ∃ hops, Net.Path (network edges edgeIdxs bytesOf) i u hops ∧ hops.map Hop.edge = path := by
  induction path using List.reverseRecOn generalizing u with
  | nil => exact ⟨[], (show i = u from follows) ▸ .nil, rfl⟩
  | append_singleton path e ih =>
      obtain ⟨v, before, edge, at_, leaves, rfl⟩ := follows_append.mp follows
      obtain ⟨hops, leads, rfl⟩ := ih before fun e mem => kept e (List.mem_append_left _ mem)
      have there : hopOf edges bytesOf v e = some ⟨edge.toVersion, e, (bytesOf edge).getD 1⟩ := by
        rw [hopOf, at_, Option.bind_some, if_pos leaves]
      refine ⟨hops ++ [⟨edge.toVersion, e, (bytesOf edge).getD 1⟩], ?_, by simp⟩
      have last : e ∈ edgeIdxs := kept e (List.mem_append_right _ (List.mem_singleton_self e))
      exact leads.snoc ⟨edge.toVersion, e, (bytesOf edge).getD 1⟩ (mem_arcs.mpr ⟨last, there⟩)

/-- The path that the order of the versions and of the kept edges chooses, and what it weighs. -/
structure Chosen (edges : List PatchEdge) (edgeIdxs : List Nat) (bytesOf : PatchEdge → Option UInt64) (i j : Nat)
    (path : List Nat) : Prop where
  hops : ∃ hops, LeastPath.Chosen (network edges edgeIdxs bytesOf) Below i j hops ∧ hops.map Hop.edge = path
  below : weight edges bytesOf path < MAX

theorem Chosen.spec (chosen : Chosen edges edgeIdxs bytesOf i j path) :
    Follows edges i j path ∧ (∀ e ∈ path, e ∈ edgeIdxs) ∧
      ∀ other, Follows edges i j other → (∀ e ∈ other, e ∈ edgeIdxs) →
        weight edges bytesOf path < weight edges bytesOf other ∨
          weight edges bytesOf path = weight edges bytesOf other ∧ path.length ≤ other.length := by
  obtain ⟨⟨hops, taken, rfl⟩, below⟩ := chosen
  obtain ⟨follows, kept, cost⟩ := path_follows taken.leads
  refine ⟨follows, kept, fun other leads within => ?_⟩
  obtain ⟨hops', leads', rfl⟩ := follows_path bytesOf leads within
  obtain ⟨-, -, cost'⟩ := path_follows leads'
  by_cases fits : weight edges bytesOf (hops'.map Hop.edge) < MAX
  · have le := (taken.least network_lawful).le hops' leads' (by simp only [Below, cost', ofLex_toLex]; omega)
    rw [cost, cost'] at le
    simp only [Prod.Lex.toLex_le_toLex, List.length_map] at le ⊢
    omega
  · exact .inl (by omega)

/-- The search finds the chosen path, and finds none when every path weighs too much. -/
theorem cheapestPath_spec (ne : i ≠ j) :
    (∃ path, cheapestPath edges edgeIdxs i j bytesOf = some path ∧ Chosen edges edgeIdxs bytesOf i j path) ∨
      cheapestPath edges edgeIdxs i j bytesOf = none ∧
        ∀ path, Follows edges i j path → (∀ e ∈ path, e ∈ edgeIdxs) → MAX ≤ weight edges bytesOf path := by
  have nodes : ∀ u ∉ (edges.map PatchEdge.fromVersion).toFinset, (network edges edgeIdxs bytesOf).arcs u = [] := by
    intro u out
    refine List.filterMap_eq_nil_iff.mpr fun e _ => ?_
    cases there : hopOf edges bytesOf u e with
    | none => rfl
    | some hop =>
        obtain ⟨edge, at_, rfl, -⟩ := hopOf_some there
        exact absurd (List.mem_toFinset.mpr (List.mem_map_of_mem (List.mem_of_getElem? at_))) out
  obtain ⟨done, ended⟩ := search_start i network_lawful nodes j
    (Nat.lt_succ_of_le (sum_arcs_le (edges.map PatchEdge.fromVersion).toFinset edgeIdxs))
  rw [cheapestPath, if_neg ne]
  dsimp only
  generalize (network edges edgeIdxs bytesOf).search j (edgeIdxs.length + 1) ((network edges edgeIdxs bytesOf).start i) = s
    at ended
  by_cases full : (ofLex (s.best j)).1 = MAX
  · refine .inr ⟨if_pos full, fun path follows kept => ?_⟩
    obtain ⟨hops, leads, rfl⟩ := follows_path bytesOf follows kept
    have bad := ended.no_path network_lawful (fun good : Below _ => absurd good (by unfold Below; omega)) leads
    rw [(path_follows leads).2.2, Below, ofLex_toLex] at bad
    dsimp only at bad
    omega
  · have top : s.best j ≤ toLex (MAX, MAX) := ended.rooted.le_top j
    have below : Below (s.best j) := by
      unfold Below
      rcases Prod.Lex.le_iff.mp top with lt | ⟨same, -⟩
      · exact lt
      · exact absurd same full
    obtain ⟨hops, taken, cost, back⟩ := ended.chosen network_lawful (le_refl (s.best j)) below
    obtain ⟨-, -, weighs⟩ := path_follows taken.leads
    have steps : s.best j = toLex (min (weight edges bytesOf (hops.map Hop.edge)) MAX, hops.length) := by
      rw [← cost, weighs]
    have fits : weight edges bytesOf (hops.map Hop.edge) < MAX := by
      simp only [Below, steps, ofLex_toLex] at below
      omega
    refine .inl ⟨hops.map Hop.edge, ?_, ⟨hops, taken, rfl⟩, fits⟩
    rw [if_neg full, steps, ofLex_toLex]
    dsimp only
    rw [back hops.length [] (Nat.le_refl _), List.append_nil, Option.map_some]

end Network
end Cavs.PatchPolicy
