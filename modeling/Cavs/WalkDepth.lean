import Cavs.WalkSearch

/-!
# The depth of an object in a walk

Without cycles an object is found on the first way to it, taking roots and dependencies in order,
and its depth is the length of that way, which need not be a shortest one.
-/
namespace Cavs
open DepthFirst

section Depth
variable {g : ObjectId → Option ObjectNode} {kinds : KindFilter} {o : WalkOptions} {roots : List ObjectId}
  {found : List (Found ObjectId)} {f : Found ObjectId} {k n : Nat}

/-- `d` is the number of hops on a shortest way to an object from any of some roots. -/
def Nearest (succ : ObjectId → List ObjectId) (roots : List ObjectId) (x : ObjectId) (d : Nat) : Prop :=
  (∃ l, Trail succ roots (l ++ [x]) ∧ l.length = d) ∧ ∀ l, Trail succ roots (l ++ [x]) → d ≤ l.length

/-- The depth of what a walk yields is the distance from the nearest root, and it fails for the
depth only where something is farther from every root than that. -/
def DepthIsDistance (g : ObjectId → Option ObjectNode) (kinds : KindFilter) (roots : List ObjectId) : Prop :=
  ∀ o : WalkOptions, o.kinds = kinds → o.Interrupts → ∀ k,
    (∀ v ∈ (sitting (fun id => .ok (g id)) o k (.start roots)).1, Nearest (admittedDependencies g kinds) roots v.id v.depth) ∧
    ((sitting (fun id => .ok (g id)) o k (.start roots)).2.1 = .failed (.walkBudget "depth" o.maxDepth) →
      ∃ x, Reaches (admittedDependencies g kinds) roots x ∧
        ∀ l, Trail (admittedDependencies g kinds) roots (l ++ [x]) → o.maxDepth < l.length)

/-- The first way to every object that is yielded is a shortest one, and none that can be reached
has a first way longer than the shortest ones to some other. -/
structure ShortFirst (g : ObjectId → Option ObjectNode) (kinds : KindFilter) (roots : List ObjectId) : Prop where
  yielded : ∀ x l, FirstTo (admittedDependencies g kinds) roots.dedup l x →
    (∀ node, g x = some node → kinds.admits node.kind = true) →
      ∀ l', Trail (admittedDependencies g kinds) roots (l' ++ [x]) → l.length ≤ l'.length
  reached : ∀ x l, FirstTo (admittedDependencies g kinds) roots.dedup l x →
    ∃ y, Reaches (admittedDependencies g kinds) roots y ∧
      ∀ l', Trail (admittedDependencies g kinds) roots (l' ++ [y]) → l.length ≤ l'.length

theorem trail_dedup {succ : ObjectId → List ObjectId} {l : List ObjectId} : Trail succ roots.dedup l ↔ Trail succ roots l := by
  cases l with
  | nil => exact Iff.rfl
  | cons a l => simp only [Trail, List.mem_dedup]

/-- Where there are no cycles, what is found is found on the first way to it. -/
theorem found_first (acyclic : ¬Cyclic (admittedDependencies g kinds) roots)
    (search : Search (admittedDependencies g kinds) [] [] roots.dedup found) (mem : f ∈ found) :
    FirstTo (admittedDependencies g kinds) roots.dedup f.path f.item := by
  obtain ⟨new, split, first⟩ := search.first (fun cyc => acyclic (cyclic_dedup.mp cyc)) (fun z in_ => nomatch in_) List.nodup_nil
  subst split
  obtain ⟨q, path, least⟩ := first f mem
  rw [path]
  exact least

theorem visitOf_depth {v : Visit} (h : visitOf g kinds f = some v) : v.depth = f.path.length := by
  unfold visitOf at h
  cases here : g f.item with
  | none =>
      simp only [here, Option.some.injEq] at h
      rw [← h]
  | some node =>
      simp only [here, Option.ite_none_right_eq_some, Option.some.injEq] at h
      rw [← h.2]

/-- Options with room for everything, down to a depth. -/
def roomy (kinds : KindFilter) (n depth : Nat) : WalkOptions where
  maxDepth := depth
  maxDependenciesPerObject := n
  maxObjects := n
  maxBytes := 2 ^ 64 - 1
  kinds
  missingIsError := false
  interrupt := fun _ => none

theorem roomy_maxBytes (kinds : KindFilter) (n depth : Nat) : (roomy kinds n depth).maxBytes.toNat = 2 ^ 64 - 1 := by
  simp only [roomy]
  decide +kernel

/-- With room for everything a walk of a graph without cycles finishes, or comes to an object deeper than its limit. -/
theorem sitting_roomy (acyclic : ¬Cyclic (admittedDependencies g kinds) roots)
    (search : Search (admittedDependencies g kinds) [] [] roots.dedup found) (depth : Nat) :
    let run := sitting (fun id => .ok (g id)) (roomy kinds (enough g kinds found) depth)
      ((told g kinds found).1.length + 1) (.start roots)
    (run.1 = found.filterMap (visitOf g kinds) ∧ ∀ f ∈ found, f.path.length ≤ depth) ∨
      run.2.1 = .failed (.walkBudget "depth" depth) ∧ ∃ f ∈ found, depth < f.path.length := by
  have sits := sitting_sits (o := roomy kinds (enough g kinds found) depth) (start_comes search)
    ((told g kinds found).1.length + 1)
  have clear : ∀ f ∈ found, ¬Blocked (admittedDependencies g kinds) f :=
    fun f mem blocked => acyclic (cyclic_dedup.mp (search.cyclic mem blocked))
  have all := told_acyclic clear
  dsimp only
  generalize sitting (fun id => .ok (g id)) (roomy kinds (enough g kinds found) depth) _ _ = run at sits ⊢
  cases sits with
  | ends said near =>
      have same := all.symm.trans said
      cases same
      exact .inl ⟨rfl, near rfl⟩
  | @rests visits ending st' later said left why =>
      exfalso
      rcases why with ⟨-, length⟩ | ⟨e, -, stop⟩
      · have longer := congrArg (fun t => t.1.length) said
        simp only [List.length_append] at longer
        change (told g kinds found).1.length = _ at longer
        omega
      · have bounds := left.within _ (bounds_enough g kinds found roots)
        have first : ¬st'.objects > (roomy kinds (enough g kinds found) depth).maxObjects := by
          have := bounds.objects
          simp only [roomy]
          omega
        have second : ¬st'.bytes > (roomy kinds (enough g kinds found) depth).maxBytes := by
          have := st'.bytes.toNat_lt
          rw [gt_iff_lt, UInt64.lt_iff_toNat_lt, roomy_maxBytes]
          omega
        unfold budgetCheck at stop
        rw [if_neg first, if_neg second] at stop
        cases stop
  | refused part mem why =>
      right
      cases why with
      | deep far => exact ⟨rfl, _, mem, far⟩
      | missing strict => cases strict
      | many here much =>
          have few := (fits_enough g kinds found _ mem).2 _ here
          exact absurd much (by simp only [roomy]; omega)

theorem budgetCheck_depth {st : WalkState} {limit : Nat} (interrupts : o.Interrupts) :
    budgetCheck o st ≠ some (.walkBudget "depth" limit) := by
  intro stop
  unfold budgetCheck at stop
  cases asked : o.interrupt st.checks with
  | some e =>
      simp only [asked, Option.some.injEq] at stop
      subst stop
      have := interrupts _ _ asked
      cases this
  | none =>
      simp only [asked] at stop
      split at stop
      · injection stop with same
        injection same with what
        exact absurd what (by decide)
      · split at stop
        · injection stop with same
          injection same with what
          exact absurd what (by decide)
        · cases stop

/-- The depth is the distance exactly where first ways are short. -/
theorem depthIsDistance_iff (g : ObjectId → Option ObjectNode) (finite : {x | (g x).isSome}.Finite) (kinds : KindFilter)
    (roots : List ObjectId) (acyclic : ¬Cyclic (admittedDependencies g kinds) roots) :
    DepthIsDistance g kinds roots ↔ ShortFirst g kinds roots := by
  obtain ⟨found, search⟩ := exists_search finite kinds roots.dedup
  have clear : ∀ f ∈ found, ¬Blocked (admittedDependencies g kinds) f :=
    fun f mem blocked => acyclic (cyclic_dedup.mp (search.cyclic mem blocked))
  have reach : ∀ {x}, x ∈ items found ↔ Reaches (admittedDependencies g kinds) roots x := fun {x} =>
    search.mem_iff.trans reaches_dedup
  constructor
  · intro holds
    have path : ∀ {x l}, FirstTo (admittedDependencies g kinds) roots.dedup l x → ⟨x, l⟩ ∈ found := by
      intro x l first
      obtain ⟨f, mem, rfl⟩ := List.mem_map.mp (search.mem_iff.mpr (trail_reaches first.1))
      rw [first.eq (found_first acyclic search mem)]
      exact mem
    constructor
    case yielded =>
      intro x l first admitted l' trail
      have run := sitting_roomy acyclic search (enough g kinds found)
      rcases run with ⟨visits, -⟩ | ⟨-, f, mem, far⟩
      · obtain ⟨v, yield⟩ := Option.isSome_iff_exists.mp ((visitOf_isSome (f := ⟨x, l⟩)).mpr admitted)
        have near := (holds (roomy kinds (enough g kinds found) (enough g kinds found)) rfl nofun _).1 v
          (by rw [visits]; exact List.mem_filterMap.mpr ⟨_, path first, yield⟩)
        rw [visitOf_id yield, visitOf_depth yield] at near
        exact near.2 l' trail
      · have := (fits_enough g kinds found f mem).1
        omega
    case reached =>
      intro x l first
      by_cases root : l.length = 0
      · exact ⟨x, reach.mp (mem_items (path first)), fun l' _ => by omega⟩
      · have run := sitting_roomy acyclic search (l.length - 1)
        rcases run with ⟨-, near⟩ | ⟨fails, -⟩
        · have here := near _ (path first)
          dsimp only at here
          omega
        · obtain ⟨y, there, far⟩ := (holds (roomy kinds (enough g kinds found) (l.length - 1)) rfl nofun _).2 fails
          refine ⟨y, there, fun l' trail => ?_⟩
          have longer := far l' trail
          simp only [roomy] at longer
          omega
  · intro short o same interrupts k
    subst same
    have sits := sitting_sits (o := o) (start_comes search) k
    constructor
    · intro v mem
      have told_ := sits.part.subset mem
      rw [told_acyclic clear] at told_
      obtain ⟨f, inside, yield⟩ := List.mem_filterMap.mp told_
      have first := found_first acyclic search inside
      rw [visitOf_id yield, visitOf_depth yield]
      exact ⟨⟨f.path, trail_dedup.mp first.1, rfl⟩,
        short.yielded f.item f.path first (visitOf_isSome.mp (by rw [yield]; rfl))⟩
    · intro fails
      generalize sitting (fun id => .ok (g id)) o k _ = run at sits fails
      cases sits with
      | @ends visits last st' said near => cases last with
        | none => cases fails
        | some dep => cases fails
      | rests said left why =>
          dsimp only at fails
          subst fails
          rcases why with ⟨paused, -⟩ | ⟨e, failed, stop⟩
          · cases paused
          · cases failed
            exact absurd stop (budgetCheck_depth interrupts)
      | refused part mem why =>
          cases why with
          | deep far =>
              obtain ⟨y, there, long⟩ := short.reached _ _ (found_first acyclic search mem)
              exact ⟨y, there, fun l' trail => lt_of_lt_of_le far (long l' trail)⟩
          | missing strict => cases fails
          | many here much => cases fails

end Depth

section Detour

theorem lonePair_evaluated : admittedDependencies lonePair .all (sameBytes 1) = [sameBytes 2] ∧
    admittedDependencies lonePair .all (sameBytes 2) = [] ∧
    (told lonePair .all [⟨sameBytes 1, []⟩, ⟨sameBytes 2, [sameBytes 1]⟩]).2 = none := by decide +kernel

theorem lonePair_acyclic : ¬Cyclic (admittedDependencies lonePair .all) [sameBytes 1] := by
  obtain ⟨first, second, none_⟩ := lonePair_evaluated
  have below : Search (admittedDependencies lonePair .all) [sameBytes 1] [⟨sameBytes 1, []⟩] [sameBytes 2]
      [⟨sameBytes 1, []⟩, ⟨sameBytes 2, [sameBytes 1]⟩] :=
    .visit (by decide) (second ▸ .nil _ _) (.nil _ _)
  have search : Search (admittedDependencies lonePair .all) [] [] ([sameBytes 1] : List ObjectId).dedup
      [⟨sameBytes 1, []⟩, ⟨sameBytes 2, [sameBytes 1]⟩] :=
    .visit (by decide) (first ▸ below) (.nil [] _)
  rw [← told_some_iff search, none_]
  nofun

theorem depthIsDistance_pair : DepthIsDistance lonePair .all [sameBytes 1] ↔ ShortFirst lonePair .all [sameBytes 1] :=
  depthIsDistance_iff lonePair lonePair_finite .all [sameBytes 1] lonePair_acyclic

/-- A commit over a tree and a chunk; the chunk stands below the tree as well, two trees further down. -/
def detour (x : ObjectId) : Option ObjectNode :=
  if x = sameBytes 1 then some ⟨sameBytes 1, .commit, 10, [sameBytes 2, sameBytes 4]⟩
  else if x = sameBytes 2 then some ⟨sameBytes 2, .tree, 10, [sameBytes 3]⟩
  else if x = sameBytes 3 then some ⟨sameBytes 3, .tree, 10, [sameBytes 4]⟩
  else if x = sameBytes 4 then some ⟨sameBytes 4, .chunk, 10, []⟩
  else none

theorem detour_finite : {x | (detour x).isSome}.Finite := by
  refine (Set.toFinite {sameBytes 1, sameBytes 2, sameBytes 3, sameBytes 4}).subset fun x there => ?_
  by_contra other
  simp only [Set.mem_insert_iff, Set.mem_singleton_iff, not_or] at other
  simp [detour, other.1, other.2.1, other.2.2.1, other.2.2.2] at there

def detourFound : List (Found ObjectId) :=
  [⟨sameBytes 1, []⟩, ⟨sameBytes 2, [sameBytes 1]⟩, ⟨sameBytes 3, [sameBytes 1, sameBytes 2]⟩,
    ⟨sameBytes 4, [sameBytes 1, sameBytes 2, sameBytes 3]⟩]

theorem detour_evaluated :
    (admittedDependencies detour .all (sameBytes 1) = [sameBytes 2, sameBytes 4] ∧
      admittedDependencies detour .all (sameBytes 2) = [sameBytes 3] ∧
      admittedDependencies detour .all (sameBytes 3) = [sameBytes 4] ∧
      admittedDependencies detour .all (sameBytes 4) = []) ∧
    (told detour .all detourFound).2 = none ∧
    (⟨sameBytes 4, 3, some ⟨sameBytes 4, .chunk, 10, []⟩⟩ : Visit) ∈
      (sitting (fun id => .ok (detour id)) .default 5 (.start [sameBytes 1])).1 := by decide +kernel

theorem detour_search : Search (admittedDependencies detour .all) [] [] ([sameBytes 1] : List ObjectId).dedup detourFound := by
  obtain ⟨⟨first, second, third, fourth⟩, -⟩ := detour_evaluated
  have chunk : Search (admittedDependencies detour .all) [sameBytes 1, sameBytes 2, sameBytes 3]
      (detourFound.take 3) [sameBytes 4] detourFound :=
    .visit (by decide) (fourth ▸ .nil _ _) (.nil _ _)
  have tree : Search (admittedDependencies detour .all) [sameBytes 1, sameBytes 2] (detourFound.take 2) [sameBytes 3] detourFound :=
    .visit (by decide) (third ▸ chunk) (.nil _ _)
  have both : Search (admittedDependencies detour .all) [sameBytes 1] (detourFound.take 1) [sameBytes 2, sameBytes 4] detourFound :=
    .visit (by decide) (second ▸ tree) (.skip (by decide) (.nil _ _))
  exact .visit (by decide) (first ▸ both) (.nil [] _)

/-- The chunk is yielded with three hops, one hop from the root. -/
theorem walk_depth_detour : {x | (detour x).isSome}.Finite ∧ ¬Cyclic (admittedDependencies detour .all) [sameBytes 1] ∧
    ¬DepthIsDistance detour .all [sameBytes 1] := by
  refine ⟨detour_finite, ?_, fun holds => ?_⟩
  · rw [← told_some_iff detour_search, detour_evaluated.2.1]
    nofun
  · have reached : sameBytes 4 ∈ admittedDependencies detour .all (sameBytes 1) := by
      rw [detour_evaluated.1.1]
      decide
    have near := ((holds .default rfl nofun 5).1 _ detour_evaluated.2.2).2 [sameBytes 1] ⟨.head _, reached, trivial⟩
    exact absurd near (by decide)

end Detour
end Cavs
