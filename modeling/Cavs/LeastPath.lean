import Mathlib.Data.Finset.Card
import Mathlib.Data.Finset.Basic
import Mathlib.Data.Prod.Lex
import Mathlib.Algebra.BigOperators.Group.Finset.Basic
import Mathlib.Algebra.Order.BigOperators.Group.Finset

/-!
# The search for a least path

A search with a heap, over any linear order of costs and any way to extend a cost by an arc that
makes it larger. A heap keeps stale entries, which are skipped when they come up. Only the costs
called good are asked to be monotone, so that a sum which saturates fits.
-/
namespace LeastPath
open Function (update update_of_ne update_self)

structure Net (V A K : Type) where
  arcs : V → List A
  dst : A → V
  extend : K → A → K
  zero : K
  top : K

structure Search (V A K : Type) where
  best : V → K
  prev : V → Option (V × A)
  heap : List (K ×ₗ V)

section Upto
variable {V A K : Type} [LinearOrder V] {net : Net V A K} {u : V} {arcs : List A}

/-- The network where only some arcs of one node are there yet. -/
def Net.upto (net : Net V A K) (u : V) (arcs : List A) : Net V A K :=
  { net with arcs := update net.arcs u arcs }

@[simp] theorem upto_arcs_self : (net.upto u arcs).arcs u = arcs := by
  simp only [Net.upto, update_self]

theorem upto_arcs_of_ne {w : V} (ne : w ≠ u) : (net.upto u arcs).arcs w = net.arcs w := by
  simp only [Net.upto, update_of_ne ne]

theorem upto_self : net.upto u (net.arcs u) = net := by
  rw [Net.upto, Function.update_eq_self]

end Upto

section Defs
variable {V A K : Type} [LinearOrder V] [LinearOrder K]

def Net.start (net : Net V A K) (source : V) : Search V A K where
  best := update (fun _ => net.top) source net.zero
  prev := fun _ => none
  heap := [toLex (net.zero, source)]

/-- One arc out of a node that was reached at a cost. -/
def Net.relax (net : Net V A K) (u : V) (k : K) (s : Search V A K) (a : A) : Search V A K :=
  if net.extend k a < s.best (net.dst a) then
    ⟨update s.best (net.dst a) (net.extend k a), update s.prev (net.dst a) (some (u, a)),
      toLex (net.extend k a, net.dst a) :: s.heap⟩
  else s

def Net.relaxAll (net : Net V A K) (u : V) (k : K) (arcs : List A) (s : Search V A K) : Search V A K :=
  arcs.foldl (net.relax u k) s

def popMin (heap : List (K ×ₗ V)) : Option ((K ×ₗ V) × List (K ×ₗ V)) := heap.min?.map fun x => (x, heap.erase x)

def Net.search (net : Net V A K) (goal : V) : (fuel : Nat) → Search V A K → Search V A K
  | 0, s => s
  | fuel + 1, s =>
      match popMin s.heap with
      | none => s
      | some (x, heap) =>
          if s.best (ofLex x).2 < (ofLex x).1 then net.search goal fuel { s with heap }
          else if (ofLex x).2 = goal then { s with heap }
          else net.search goal fuel (net.relaxAll (ofLex x).2 (ofLex x).1 (net.arcs (ofLex x).2) { s with heap })

/-- The arcs from a source to a node along the nodes they were reached from. -/
def backtrack (source : V) (prev : V → Option (V × A)) : (fuel : Nat) → V → List A → Option (List A)
  | 0, v, path => if v = source then some path else none
  | fuel + 1, v, path =>
      if v = source then some path
      else match prev v with
        | some (u, a) => backtrack source prev fuel u (a :: path)
        | none => none

/-- A list of arcs that leads from one node to another. -/
inductive Net.Path (net : Net V A K) (source : V) : V → List A → Prop
  | nil : Net.Path net source source []
  | snoc {u : V} {path : List A} (a : A) : Net.Path net source u path → a ∈ net.arcs u →
      Net.Path net source (net.dst a) (path ++ [a])

def Net.cost (net : Net V A K) (path : List A) : K := path.foldl net.extend net.zero

/-- The laws of the costs, where the good ones are the ones a path is asked to have. -/
structure Net.Lawful (net : Net V A K) (Good : K → Prop) : Prop where
  good_zero : Good net.zero
  zero_le : ∀ k, net.zero ≤ k
  lt_extend : ∀ {k} a, k < net.top → k < net.extend k a
  good_of_extend : ∀ {k a}, Good (net.extend k a) → Good k
  extend_le : ∀ {j k a}, j ≤ k → Good (net.extend k a) → net.extend j a ≤ net.extend k a
  good_of_le : ∀ {j k}, j ≤ k → Good k → Good j
  lt_top : ∀ {k}, Good k → k < net.top

/-- An arc is the first of its node that gives its end a certain cost. -/
def Net.FirstArc (net : Net V A K) (u : V) (k : K) (v : V) (c : K) (a : A) : Prop :=
  (net.arcs u).find? (fun b => decide (net.dst b = v ∧ net.extend k b = c)) = some a

/-- The least cost of a node over the paths of a good cost. -/
structure Least (net : Net V A K) (Good : K → Prop) (source v : V) (k : K) : Prop where
  good : Good k
  path : ∃ path, Net.Path net source v path ∧ net.cost path = k
  le : ∀ path, Net.Path net source v path → Good (net.cost path) → k ≤ net.cost path

/-- The path that the search takes: least at every node, over the least node it can come from, by
the first arc of that node. -/
inductive Chosen (net : Net V A K) (Good : K → Prop) (source : V) : V → List A → Prop
  | nil : Chosen net Good source source []
  | snoc {u v : V} {path : List A} {a : A} : v ≠ source → Chosen net Good source u path →
      net.FirstArc u (net.cost path) v (net.cost (path ++ [a])) a →
      Least net Good source v (net.cost (path ++ [a])) →
      (∀ w j b, Least net Good source w j → b ∈ net.arcs w → net.dst b = v →
        net.extend j b = net.cost (path ++ [a]) → toLex (net.cost path, u) ≤ toLex (j, w)) →
      Chosen net Good source v (path ++ [a])

/-- What the costs and the back arcs are worth once the nodes of `done` were expanded. -/
structure Rooted (net : Net V A K) (source : V) (best : V → K) (prev : V → Option (V × A)) (done : Finset V) : Prop where
  root : best source = net.zero
  le_top : ∀ v, best v ≤ net.top
  reached : ∀ u ∈ done, best u < net.top
  relaxed : ∀ u ∈ done, ∀ a ∈ net.arcs u, best (net.dst a) ≤ net.extend (best u) a
  back : ∀ v ≠ source, best v < net.top → ∃ u a, prev v = some (u, a) ∧ u ∈ done ∧
    net.FirstArc u (best u) v (best v) a ∧
    ∀ w ∈ done, ∀ b ∈ net.arcs w, net.dst b = v → net.extend (best w) b = best v →
      toLex (best u, u) ≤ toLex (best w, w)

/-- The heap has the cost of every node that is reached and not yet expanded. -/
structure Heaped (net : Net V A K) (s : Search V A K) (done : Finset V) : Prop where
  nodup : s.heap.Nodup
  lt_top : ∀ x ∈ s.heap, (ofLex x).1 < net.top
  ge_best : ∀ x ∈ s.heap, s.best (ofLex x).2 ≤ (ofLex x).1
  has : ∀ v ∉ done, s.best v < net.top → toLex (s.best v, v) ∈ s.heap
  above : ∀ u ∈ done, ∀ x ∈ s.heap, toLex (s.best u, u) < x

end Defs

section Relax
variable {V A K : Type} [LinearOrder V] [LinearOrder K] {net : Net V A K} {Good : K → Prop}
  {source u v : V} {k : K} {s : Search V A K} {done : Finset V} {arcs : List A} {a : A} {x : K ×ₗ V} {w : V}
  {b : A} {nodes : Finset V}

theorem Net.FirstArc.mem {c : K} (first : net.FirstArc u k v c a) :
    a ∈ net.arcs u ∧ net.dst a = v ∧ net.extend k a = c := by
  have found := List.find?_some first
  exact ⟨List.mem_of_find?_eq_some first, of_decide_eq_true found⟩

omit [LinearOrder K] in
theorem start_best_source : (net.start source).best source = net.zero := by
  simp only [Net.start, update_self]

omit [LinearOrder K] in
theorem start_best_of_ne (ne : v ≠ source) : (net.start source).best v = net.top := by
  simp only [Net.start, update_of_ne ne]

theorem start_rooted (lawful : net.Lawful Good) :
    Rooted net source (net.start source).best (net.start source).prev ∅ where
  root := start_best_source
  le_top v := by
    by_cases same : v = source
    · rw [same, start_best_source]
      exact lawful.zero_le net.top
    · exact (start_best_of_ne same).le
  reached u mem := absurd mem (Finset.notMem_empty u)
  relaxed u mem := absurd mem (Finset.notMem_empty u)
  back v ne less := by
    rw [start_best_of_ne ne] at less
    exact absurd less (lt_irrefl _)

theorem start_heaped (lawful : net.Lawful Good) : Heaped net (net.start source) ∅ where
  nodup := List.nodup_singleton _
  lt_top x mem := by
    rw [List.mem_singleton.mp mem]
    exact lawful.lt_top lawful.good_zero
  ge_best x mem := by
    rw [List.mem_singleton.mp mem]
    exact start_best_source.le
  has v out less := by
    by_cases same : v = source
    · rw [same, start_best_source]
      exact List.mem_singleton_self _
    · rw [start_best_of_ne same] at less
      exact absurd less (lt_irrefl _)
  above u mem := absurd mem (Finset.notMem_empty u)

/-- The least entry of a heap, and the rest. -/
theorem popMin_some {heap rest : List (K ×ₗ V)} (pop : popMin heap = some (x, rest)) :
    x ∈ heap ∧ (∀ y ∈ heap, x ≤ y) ∧ rest = heap.erase x := by
  obtain ⟨y, least, same⟩ := Option.map_eq_some_iff.mp pop
  obtain ⟨rfl, rfl⟩ := Prod.mk.inj same
  obtain ⟨mem, le⟩ := List.min?_eq_some_iff.mp least
  exact ⟨mem, le, rfl⟩

theorem popMin_none {heap : List (K ×ₗ V)} (pop : popMin heap = none) : heap = [] :=
  List.min?_eq_none_iff.mp (Option.map_eq_none_iff.mp pop)

/-- A stale entry is one that the cost of its node has gone below. -/
theorem Heaped.skip (heaped : Heaped net s done) (stale : s.best (ofLex x).2 < (ofLex x).1) :
    Heaped net { s with heap := s.heap.erase x } done where
  nodup := heaped.nodup.erase x
  lt_top y mem := heaped.lt_top y (List.mem_of_mem_erase mem)
  ge_best y mem := heaped.ge_best y (List.mem_of_mem_erase mem)
  has v out less := by
    refine (List.mem_erase_of_ne fun same => ?_).mpr (heaped.has v out less)
    rw [← same] at stale
    exact lt_irrefl _ stale
  above u mem y inside := heaped.above u mem y (List.mem_of_mem_erase inside)

/-- A fresh entry is the cost of its node, and the node was not expanded before. -/
theorem Heaped.fresh (heaped : Heaped net s done) (mem : x ∈ s.heap)
    (fresh : ¬ s.best (ofLex x).2 < (ofLex x).1) :
    x = toLex (s.best (ofLex x).2, (ofLex x).2) ∧ (ofLex x).2 ∉ done := by
  have same : s.best (ofLex x).2 = (ofLex x).1 := le_antisymm (heaped.ge_best x mem) (not_lt.mp fresh)
  have entry : x = toLex (s.best (ofLex x).2, (ofLex x).2) := by
    rw [same]
    rfl
  refine ⟨entry, fun expanded => ?_⟩
  have above := heaped.above _ expanded x mem
  rw [← entry] at above
  exact lt_irrefl x above

theorem Heaped.settle (heaped : Heaped net s done) (entry : toLex (s.best u, u) ∈ s.heap)
    (least : ∀ y ∈ s.heap, toLex (s.best u, u) ≤ y) :
    Heaped (net.upto u []) { s with heap := s.heap.erase (toLex (s.best u, u)) } (insert u done) where
  nodup := heaped.nodup.erase _
  lt_top y mem := heaped.lt_top y (List.mem_of_mem_erase mem)
  ge_best y mem := heaped.ge_best y (List.mem_of_mem_erase mem)
  has v out less := by
    obtain ⟨ne, still⟩ := not_or.mp (Finset.mem_insert.not.mp out)
    refine (List.mem_erase_of_ne fun same => ne ?_).mpr (heaped.has v still less)
    exact congrArg (fun x => (ofLex x).2) same
  above w mem y inside := by
    obtain ⟨ne, inHeap⟩ := (heaped.nodup.mem_erase_iff).mp inside
    rcases Finset.mem_insert.mp mem with rfl | expanded
    · exact lt_of_le_of_ne (least y inHeap) ne.symm
    · exact heaped.above w expanded y inHeap

theorem Rooted.settle (rooted : Rooted net source s.best s.prev done) (new : u ∉ done) (less : s.best u < net.top) :
    Rooted (net.upto u []) source s.best s.prev (insert u done) where
  root := rooted.root
  le_top := rooted.le_top
  reached w mem := by
    rcases Finset.mem_insert.mp mem with rfl | expanded
    · exact less
    · exact rooted.reached w expanded
  relaxed w mem a arc := by
    rcases Finset.mem_insert.mp mem with rfl | expanded
    · rw [upto_arcs_self] at arc
      exact absurd arc List.not_mem_nil
    · have ne : w ≠ u := fun same => new (same ▸ expanded)
      rw [upto_arcs_of_ne ne] at arc
      exact rooted.relaxed w expanded a arc
  back v ne below := by
    obtain ⟨w, a, came, expanded, first, least⟩ := rooted.back v ne below
    have other : w ≠ u := fun same => new (same ▸ expanded)
    refine ⟨w, a, came, Finset.mem_insert_of_mem expanded, ?_, fun x mem b arc => ?_⟩
    · rw [Net.FirstArc, upto_arcs_of_ne other]
      exact first
    · rcases Finset.mem_insert.mp mem with rfl | old
      · rw [upto_arcs_self] at arc
        exact absurd arc List.not_mem_nil
      · have apart : x ≠ u := fun same => new (same ▸ old)
        rw [upto_arcs_of_ne apart] at arc
        exact least x old b arc

/-- A node is being expanded: it is the last of the expanded ones, and some of its arcs are relaxed. -/
structure Expanding (net : Net V A K) (source : V) (s : Search V A K) (done : Finset V) (u : V) (k : K)
    (arcs : List A) : Prop where
  rooted : Rooted (net.upto u arcs) source s.best s.prev done
  heaped : Heaped (net.upto u arcs) s done
  mem : u ∈ done
  same : s.best u = k
  last : ∀ w ∈ done, toLex (s.best w, w) ≤ toLex (k, u)

theorem Expanding.lt_extend (lawful : net.Lawful Good) (e : Expanding net source s done u k arcs) (a : A) :
    k < net.extend k a := by
  refine lawful.lt_extend a ?_
  rw [← e.same]
  exact e.rooted.reached u e.mem

theorem Expanding.best_lt (lawful : net.Lawful Good) (e : Expanding net source s done u k arcs) (a : A)
    (mem : w ∈ done) : s.best w < net.extend k a := by
  rcases Prod.Lex.toLex_le_toLex.mp (e.last w mem) with less | ⟨same, -⟩
  · exact lt_trans less (e.lt_extend lawful a)
  · exact lt_of_eq_of_lt same (e.lt_extend lawful a)

omit [LinearOrder K] in
theorem mem_upto_snoc (arc : b ∈ (net.upto u (arcs ++ [a])).arcs w) :
    b ∈ (net.upto u arcs).arcs w ∨ w = u ∧ b = a := by
  by_cases same : w = u
  · subst same
    rw [upto_arcs_self] at arc ⊢
    rcases List.mem_append.mp arc with old | new
    · exact .inl old
    · exact .inr ⟨rfl, List.mem_singleton.mp new⟩
  · rw [upto_arcs_of_ne same] at arc ⊢
    exact .inl arc

theorem firstArc_upto {c j : K} : (net.upto u arcs).FirstArc u j v c b ↔
    arcs.find? (fun b => decide (net.dst b = v ∧ net.extend j b = c)) = some b := by
  rw [Net.FirstArc, upto_arcs_self]
  rfl

/-- The first arc stays the first when one more is there. -/
theorem Net.FirstArc.snoc {c j : K} (first : (net.upto u arcs).FirstArc w j v c b) :
    (net.upto u (arcs ++ [a])).FirstArc w j v c b := by
  by_cases same : w = u
  · subst same
    rw [firstArc_upto] at first ⊢
    rw [List.find?_append, first, Option.some_or]
  · rw [Net.FirstArc, upto_arcs_of_ne same] at first ⊢
    exact first

/-- An arc that gains nothing changes nothing. -/
theorem Expanding.keep (e : Expanding net source s done u k arcs)
    (worse : s.best (net.dst a) ≤ net.extend k a) : Expanding net source s done u k (arcs ++ [a]) where
  rooted :=
    { root := e.rooted.root
      le_top := e.rooted.le_top
      reached := e.rooted.reached
      relaxed := by
        intro w mem b arc
        rcases mem_upto_snoc arc with old | ⟨rfl, rfl⟩
        · exact e.rooted.relaxed w mem b old
        · exact e.same ▸ worse
      back := by
        intro w ne below
        obtain ⟨x, b, came, expanded, first, least⟩ := e.rooted.back w ne below
        refine ⟨x, b, came, expanded, first.snoc, fun y mem c arc ends gives => ?_⟩
        rcases mem_upto_snoc arc with old | ⟨rfl, rfl⟩
        · exact least y mem c old ends gives
        · rw [e.same]
          exact e.last x expanded }
  heaped := ⟨e.heaped.nodup, e.heaped.lt_top, e.heaped.ge_best, e.heaped.has, e.heaped.above⟩
  mem := e.mem
  same := e.same
  last := e.last

/-- An arc that gains lowers the cost of a node that is not expanded yet. -/
theorem Expanding.lower (lawful : net.Lawful Good) (e : Expanding net source s done u k arcs)
    (better : net.extend k a < s.best (net.dst a)) :
    Expanding net source
      ⟨update s.best (net.dst a) (net.extend k a), update s.prev (net.dst a) (some (u, a)),
        toLex (net.extend k a, net.dst a) :: s.heap⟩ done u k (arcs ++ [a]) := by
  have out : net.dst a ∉ done := fun mem => lt_asymm better (e.best_lt lawful a mem)
  have apart : ∀ w ∈ done, w ≠ net.dst a := fun w mem same => out (same ▸ mem)
  have kept : ∀ w ∈ done, update s.best (net.dst a) (net.extend k a) w = s.best w :=
    fun w mem => update_of_ne (apart w mem) _ _
  have notRoot : source ≠ net.dst a := by
    intro same
    rw [← same, e.rooted.root] at better
    exact absurd better (not_lt.mpr (lawful.zero_le _))
  have le_old : ∀ w, update s.best (net.dst a) (net.extend k a) w ≤ s.best w := by
    intro w
    by_cases same : w = net.dst a
    · rw [same, update_self]
      exact better.le
    · rw [update_of_ne same]
  -- an arc that was there before gives the node its old cost at least
  have gives : ∀ w ∈ done, ∀ b ∈ (net.upto u arcs).arcs w, net.dst b = net.dst a →
      net.extend k a < net.extend (s.best w) b := by
    intro w mem b arc ends
    have le : s.best (net.dst b) ≤ net.extend (s.best w) b := e.rooted.relaxed w mem b arc
    rw [ends] at le
    exact lt_of_lt_of_le better le
  refine ⟨⟨?_, ?_, ?_, ?_, ?_⟩, ⟨?_, ?_, ?_, ?_, ?_⟩, e.mem, ?_, ?_⟩
  · exact (update_of_ne notRoot _ _).trans e.rooted.root
  · exact fun w => le_trans (le_old w) (e.rooted.le_top w)
  · exact fun w mem => lt_of_eq_of_lt (kept w mem) (e.rooted.reached w mem)
  · intro w mem b arc
    dsimp only
    rw [kept w mem]
    rcases mem_upto_snoc arc with old | ⟨rfl, rfl⟩
    · exact le_trans (le_old _) (e.rooted.relaxed w mem b old)
    · rw [e.same]
      exact (update_self _ _ _).le
  · intro w ne below
    dsimp only at below ⊢
    by_cases same : w = net.dst a
    · subst same
      rw [update_self, update_self]
      refine ⟨u, a, rfl, e.mem, ?_, fun x mem b arc ends gains => ?_⟩
      · have none_before : arcs.find? (fun b => decide (net.dst b = net.dst a ∧ net.extend k b = net.extend k a)) = none := by
          refine List.find?_eq_none.mpr fun b mem eq => ?_
          obtain ⟨ends, gains⟩ := of_decide_eq_true eq
          have less := gives u e.mem b (by rwa [upto_arcs_self]) ends
          rw [e.same, gains] at less
          exact lt_irrefl _ less
        rw [kept u e.mem, e.same, firstArc_upto, List.find?_append, none_before, Option.none_or]
        exact List.find?_cons_of_pos (decide_eq_true ⟨rfl, rfl⟩)
      · rw [kept x mem] at gains ⊢
        rcases mem_upto_snoc arc with old | ⟨rfl, rfl⟩
        · exact absurd gains (gives x mem b old ends).ne'
        · rw [kept x mem]
    · rw [update_of_ne same] at below
      rw [update_of_ne same, update_of_ne same]
      obtain ⟨x, b, came, expanded, first, least⟩ := e.rooted.back w ne below
      refine ⟨x, b, came, expanded, ?_, fun y mem c arc ends gains => ?_⟩
      · rw [kept x expanded]
        exact first.snoc
      · rw [kept y mem] at gains ⊢
        rw [kept x expanded]
        rcases mem_upto_snoc arc with old | ⟨rfl, rfl⟩
        · exact least y mem c old ends gains
        · exact absurd ends.symm same
  · refine List.nodup_cons.mpr ⟨fun mem => ?_, e.heaped.nodup⟩
    exact absurd better (not_lt.mpr (e.heaped.ge_best _ mem))
  · intro x mem
    rcases List.mem_cons.mp mem with rfl | old
    · exact lt_of_lt_of_le better (e.rooted.le_top _)
    · exact e.heaped.lt_top x old
  · intro x mem
    rcases List.mem_cons.mp mem with rfl | old
    · exact (update_self _ _ _).le
    · exact le_trans (le_old _) (e.heaped.ge_best x old)
  · intro w still below
    dsimp only at below ⊢
    by_cases same : w = net.dst a
    · rw [same, update_self]
      exact .head _
    · rw [update_of_ne same] at below ⊢
      exact .tail _ (e.heaped.has w still below)
  · intro w mem x inside
    dsimp only
    rw [kept w mem]
    rcases List.mem_cons.mp inside with rfl | old
    · exact Prod.Lex.toLex_lt_toLex.mpr (.inl (e.best_lt lawful a mem))
    · exact e.heaped.above w mem x old
  · exact (kept u e.mem).trans e.same
  · intro w mem
    dsimp only
    rw [kept w mem]
    exact e.last w mem

theorem Expanding.relax (lawful : net.Lawful Good) (e : Expanding net source s done u k arcs) (a : A) :
    Expanding net source (net.relax u k s a) done u k (arcs ++ [a]) := by
  rw [Net.relax]
  split
  · next better => exact e.lower lawful better
  · next worse => exact e.keep (not_lt.mp worse)

theorem Expanding.relaxAll (lawful : net.Lawful Good) (more : List A) (e : Expanding net source s done u k arcs) :
    Expanding net source (net.relaxAll u k more s) done u k (arcs ++ more) := by
  induction more generalizing s arcs with
  | nil => rwa [List.append_nil]
  | cons a more ih =>
      have rest := ih (e.relax lawful a)
      rwa [List.append_assoc] at rest

/-! ## The whole search -/

/-- Where the search ends: no node left over is nearer than the goal. -/
structure Ended (net : Net V A K) (source goal : V) (s : Search V A K) (done : Finset V) : Prop where
  rooted : Rooted net source s.best s.prev done
  beyond : ∀ v ∉ done, s.best v < net.top → s.best goal ≤ s.best v

/-- What is left to do: the entries of the heap, and the arcs of the nodes not expanded. -/
def Net.potential (net : Net V A K) (nodes : Finset V) (s : Search V A K) (done : Finset V) : Nat :=
  s.heap.length + ∑ u ∈ nodes \ done, (net.arcs u).length

theorem relaxAll_heap_le (more : List A) :
    (net.relaxAll u k more s).heap.length ≤ s.heap.length + more.length := by
  induction more generalizing s with
  | nil => exact Nat.le_refl _
  | cons a more ih =>
      have one : (net.relax u k s a).heap.length ≤ s.heap.length + 1 := by
        rw [Net.relax]
        split
        · exact Nat.le_refl _
        · exact Nat.le_add_right _ _
      have rest := @ih (net.relax u k s a)
      rw [List.length_cons]
      exact Nat.le_trans rest (by omega)

/-- What is left drops when a node is expanded: its arcs pay for the entries they add. -/
theorem potential_settle (others : ∀ w ∉ nodes, net.arcs w = []) (new : u ∉ done) (mem : x ∈ s.heap) :
    net.potential nodes (net.relaxAll u k (net.arcs u) { s with heap := s.heap.erase x }) (insert u done) + 1
      ≤ net.potential nodes s done := by
  have heap : (net.relaxAll u k (net.arcs u) { s with heap := s.heap.erase x }).heap.length
      ≤ (s.heap.erase x).length + (net.arcs u).length := relaxAll_heap_le _
  have erased : (s.heap.erase x).length + 1 = s.heap.length := List.length_erase_add_one mem
  have left : ∑ w ∈ nodes \ insert u done, (net.arcs w).length + (net.arcs u).length
      = ∑ w ∈ nodes \ done, (net.arcs w).length := by
    by_cases node : u ∈ nodes
    · rw [Finset.sdiff_insert]
      exact Finset.sum_erase_add _ _ (Finset.mem_sdiff.mpr ⟨node, new⟩)
    · rw [others u node, List.length_nil, Nat.add_zero]
      refine Finset.sum_congr (Finset.ext fun w => ?_) fun _ _ => rfl
      simp only [Finset.mem_sdiff, Finset.mem_insert, not_or]
      exact ⟨fun h => ⟨h.1, h.2.2⟩, fun h => ⟨h.1, fun same => node (same ▸ h.1), h.2⟩⟩
  unfold Net.potential
  omega

theorem Ended.of_empty {goal : V} (rooted : Rooted net source s.best s.prev done) (heaped : Heaped net s done)
    (empty : s.heap = []) : Ended net source goal s done where
  rooted := rooted
  beyond v out less := by
    have has := heaped.has v out less
    rw [empty] at has
    exact absurd has List.not_mem_nil

/-- Enough turns end the search. -/
theorem search_ended (lawful : net.Lawful Good) (others : ∀ w ∉ nodes, net.arcs w = []) {goal : V} {fuel : Nat}
    (rooted : Rooted net source s.best s.prev done) (heaped : Heaped net s done)
    (enough : net.potential nodes s done ≤ fuel) :
    ∃ done, Ended net source goal (net.search goal fuel s) done := by
  induction fuel generalizing s done with
  | zero =>
      have empty : s.heap = [] := List.length_eq_zero_iff.mp (by unfold Net.potential at enough; omega)
      exact ⟨done, .of_empty rooted heaped empty⟩
  | succ fuel ih =>
      rw [Net.search]
      cases pop : popMin s.heap with
      | none => exact ⟨done, .of_empty rooted heaped (popMin_none pop)⟩
      | some pair =>
          obtain ⟨x, rest⟩ := pair
          obtain ⟨mem, least, rfl⟩ := popMin_some pop
          dsimp only
          by_cases stale : s.best (ofLex x).2 < (ofLex x).1
          · rw [if_pos stale]
            have erased : (s.heap.erase x).length + 1 = s.heap.length := List.length_erase_add_one mem
            exact ih (s := { s with heap := s.heap.erase x }) rooted (heaped.skip stale)
              (by unfold Net.potential at enough ⊢; dsimp only; omega)
          · rw [if_neg stale]
            obtain ⟨entry, new⟩ := heaped.fresh mem stale
            by_cases goal_ : (ofLex x).2 = goal
            · rw [if_pos goal_]
              refine ⟨done, rooted, fun v out less => ?_⟩
              have le := least _ (heaped.has v out less)
              rw [entry, goal_] at le
              rcases Prod.Lex.toLex_le_toLex.mp le with lt | ⟨same, -⟩
              · exact lt.le
              · exact same.le
            · rw [if_neg goal_]
              have less : s.best (ofLex x).2 < net.top :=
                lt_of_le_of_lt (heaped.ge_best x mem) (heaped.lt_top x mem)
              have cost : s.best (ofLex x).2 = (ofLex x).1 := by
                conv_rhs => rw [entry]
                rfl
              have start : Expanding net source { s with heap := s.heap.erase x } (insert (ofLex x).2 done)
                  (ofLex x).2 (ofLex x).1 [] :=
                { rooted := rooted.settle new less
                  heaped := by
                    have settled := heaped.settle (u := (ofLex x).2) (entry ▸ mem) (entry ▸ least)
                    rwa [← entry] at settled
                  mem := Finset.mem_insert_self _ _
                  same := cost
                  last := by
                    intro w inside
                    rcases Finset.mem_insert.mp inside with rfl | old
                    · rw [← cost]
                    · exact (heaped.above w old x mem).le }
              have whole := start.relaxAll lawful (net.arcs (ofLex x).2)
              rw [List.nil_append] at whole
              obtain ⟨rooted', heaped', -, -, -⟩ := whole
              rw [upto_self] at rooted' heaped'
              have drops := potential_settle (k := (ofLex x).1) others new mem
              exact ih rooted' heaped' (by omega)

theorem search_start (source : V) (lawful : net.Lawful Good) (others : ∀ w ∉ nodes, net.arcs w = []) (goal : V)
    {fuel : Nat} (enough : ∑ u ∈ nodes, (net.arcs u).length < fuel) :
    ∃ done, Ended net source goal (net.search goal fuel (net.start source)) done := by
  refine search_ended lawful others (start_rooted lawful) (start_heaped lawful) ?_
  rw [Net.potential, Finset.sdiff_empty]
  simp only [Net.start, List.length_singleton]
  omega

end Relax

/-! ## What the search finds -/
section Found
variable {V A K : Type} [LinearOrder V] [LinearOrder K] {net : Net V A K} {Good : K → Prop}
  {source goal u v : V} {s : Search V A K} {done : Finset V} {path other : List A} {a : A}

omit [LinearOrder V] [LinearOrder K] in
@[simp] theorem cost_snoc : net.cost (path ++ [a]) = net.extend (net.cost path) a := List.foldl_append

/-- A path of a good cost is no cheaper than what the search found, for its end or for the goal. -/
theorem Ended.best_le (lawful : net.Lawful Good) (ended : Ended net source goal s done)
    (leads : Net.Path net source v path) (good : Good (net.cost path)) :
    s.best v ≤ net.cost path ∨ s.best goal ≤ net.cost path := by
  induction leads with
  | nil => exact .inl ended.rooted.root.le
  | @snoc u path a leads arc ih =>
      rw [cost_snoc] at good ⊢
      have before := lawful.good_of_extend good
      have longer := (lawful.lt_extend a (lawful.lt_top before)).le
      rcases ih before with near | far
      · by_cases expanded : u ∈ done
        · exact .inl (le_trans (ended.rooted.relaxed u expanded a arc) (lawful.extend_le near good))
        · have reached := lt_of_le_of_lt near (lawful.lt_top before)
          exact .inr (le_trans (ended.beyond u expanded reached) (le_trans near longer))
      · exact .inr (le_trans far longer)

theorem Ended.no_path (lawful : net.Lawful Good) (ended : Ended net source goal s done)
    (bad : ¬ Good (s.best goal)) (leads : Net.Path net source goal path) : ¬ Good (net.cost path) := by
  intro good
  rcases ended.best_le lawful leads good with le | le <;> exact bad (lawful.good_of_le le good)

theorem Net.FirstArc.extends_path {c : K} (first : net.FirstArc u (net.cost path) v c a)
    (leads : Net.Path net source u path) : Net.Path net source v (path ++ [a]) := by
  obtain ⟨arc, rfl, -⟩ := first.mem
  exact leads.snoc a arc

/-- Going back from a node leads over a path, however much fuel above its length is there. -/
def GoesBack (source : V) (prev : V → Option (V × A)) (v : V) (path : List A) : Prop :=
  ∀ fuel rest, path.length ≤ fuel → backtrack source prev fuel v rest = some (path ++ rest)

theorem goesBack_source {prev : V → Option (V × A)} : GoesBack source prev source [] := by
  intro fuel rest _
  cases fuel <;> simp [backtrack]

theorem GoesBack.snoc {prev : V → Option (V × A)} (back : GoesBack source prev u path) (ne : v ≠ source)
    (came : prev v = some (u, a)) : GoesBack source prev v (path ++ [a]) := by
  intro fuel rest enough
  rw [List.length_append, List.length_singleton] at enough
  cases fuel with
  | zero => omega
  | succ fuel =>
      simp only [backtrack, if_neg ne, came]
      rw [back fuel (a :: rest) (by omega), List.append_assoc]
      rfl

/-- How many expanded nodes are nearer than a node, which the induction over the way back counts. -/
def nearer (best : V → K) (done : Finset V) (v : V) : Nat := (done.filter fun w => best w < best v).card

omit [LinearOrder V] in
theorem nearer_lt {best : V → K} (mem : u ∈ done) (less : best u < best v) :
    nearer best done u < nearer best done v := by
  refine Finset.card_lt_card (Finset.ssubset_iff_subset_ne.mpr ⟨fun w inside => ?_, fun same => ?_⟩)
  · obtain ⟨expanded, near⟩ := Finset.mem_filter.mp inside
    exact Finset.mem_filter.mpr ⟨expanded, lt_trans near less⟩
  · have inside : u ∈ done.filter fun w => best w < best v := Finset.mem_filter.mpr ⟨mem, less⟩
    rw [← same] at inside
    exact lt_irrefl _ (Finset.mem_filter.mp inside).2

/-- The back arcs of a node that was reached lead back to the source, at the cost of the node. -/
theorem Rooted.back_path (lawful : net.Lawful Good) (rooted : Rooted net source s.best s.prev done)
    (reached : s.best v < net.top) : ∃ path, Net.Path net source v path ∧ net.cost path = s.best v ∧
      GoesBack source s.prev v path := by
  induction near : nearer s.best done v using Nat.strong_induction_on generalizing v with
  | _ n ih =>
      by_cases root : v = source
      · subst root
        exact ⟨[], .nil, rooted.root.symm, goesBack_source⟩
      · obtain ⟨u, a, came, expanded, first, -⟩ := rooted.back v root reached
        obtain ⟨arc, ends, gives⟩ := first.mem
        have below : s.best u < net.top := rooted.reached u expanded
        have less : s.best u < s.best v := gives ▸ lawful.lt_extend a below
        obtain ⟨path, leads, cost, back⟩ := ih _ (near ▸ nearer_lt expanded less) below rfl
        exact ⟨path ++ [a], ends ▸ leads.snoc a arc, by rw [cost_snoc, cost, gives], back.snoc root came⟩

theorem Ended.least (lawful : net.Lawful Good) (ended : Ended net source goal s done)
    (near : s.best v ≤ s.best goal) (good : Good (s.best goal)) : Least net Good source v (s.best v) where
  good := lawful.good_of_le near good
  path := by
    obtain ⟨path, leads, cost, -⟩ := ended.rooted.back_path lawful (lt_of_le_of_lt near (lawful.lt_top good))
    exact ⟨path, leads, cost⟩
  le path leads fits := by
    rcases ended.best_le lawful leads fits with le | le
    · exact le
    · exact le_trans near le

/-- A node whose least cost is below that of the goal was expanded, at that cost. -/
theorem Ended.expanded (lawful : net.Lawful Good) (ended : Ended net source goal s done) {k : K}
    (least : Least net Good source v k) (near : k < s.best goal) (good : Good (s.best goal)) :
    v ∈ done ∧ s.best v = k := by
  obtain ⟨path, leads, rfl⟩ := least.path
  rcases ended.best_le lawful leads least.good with le | far
  · have below := lt_of_le_of_lt le near
    obtain ⟨short, there, cost⟩ := (ended.least lawful below.le good).path
    refine ⟨by_contra fun out => ?_, le_antisymm le ?_⟩
    · exact absurd (ended.beyond v out (lt_of_le_of_lt le (lawful.lt_top least.good))) (not_le.mpr below)
    · rw [← cost]
      exact least.le short there (cost ▸ lawful.good_of_le below.le good)
  · exact absurd near (not_lt.mpr far)

theorem Chosen.leads (chosen : Chosen net Good source v path) : Net.Path net source v path := by
  induction chosen with
  | nil => exact .nil
  | snoc _ _ first _ _ ih => exact first.extends_path ih

/-- The back arcs from the goal are the path that the order of the nodes and of the arcs chooses. -/
theorem Ended.chosen (lawful : net.Lawful Good) (ended : Ended net source goal s done)
    (near : s.best v ≤ s.best goal) (good : Good (s.best goal)) :
    ∃ path, Chosen net Good source v path ∧ net.cost path = s.best v ∧
      GoesBack source s.prev v path := by
  induction count : nearer s.best done v using Nat.strong_induction_on generalizing v with
  | _ n ih =>
      have reached := lt_of_le_of_lt near (lawful.lt_top good)
      by_cases root : v = source
      · subst root
        exact ⟨[], .nil, ended.rooted.root.symm, goesBack_source⟩
      · obtain ⟨u, a, came, expanded, first, order⟩ := ended.rooted.back v root reached
        obtain ⟨arc, ends, gives⟩ := first.mem
        have less : s.best u < s.best v := gives ▸ lawful.lt_extend a (ended.rooted.reached u expanded)
        obtain ⟨path, chosen, cost, back⟩ := ih _ (count ▸ nearer_lt expanded less) (le_trans less.le near) rfl
        have total : net.cost (path ++ [a]) = s.best v := by rw [cost_snoc, cost, gives]
        refine ⟨path ++ [a], .snoc root chosen (by rwa [total, cost]) (total ▸ ended.least lawful near good) ?_,
          total, back.snoc root came⟩
        intro w j b least out ends' gains
        rw [total] at gains
        have before : Good j := lawful.good_of_extend (k := j) (a := b) (gains ▸ lawful.good_of_le near good)
        have closer : j < s.best v := gains ▸ lawful.lt_extend b (lawful.lt_top before)
        obtain ⟨inside, same⟩ := ended.expanded lawful least (lt_of_lt_of_le closer near) good
        have le := order w inside b out ends' (by rw [same, gains])
        rwa [same, ← cost] at le

theorem Chosen.least (lawful : net.Lawful Good) (chosen : Chosen net Good source v path) :
    Least net Good source v (net.cost path) := by
  cases chosen with
  | nil => exact ⟨lawful.good_zero, ⟨[], .nil, rfl⟩, fun _ _ _ => lawful.zero_le _⟩
  | snoc _ _ _ least _ => exact least

end Found
end LeastPath
